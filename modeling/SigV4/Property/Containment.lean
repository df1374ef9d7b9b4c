import SigV4.Lib.Segments
import SigV4.Property.Soundness

/-!
# A prefix contains what it allows

The policy compares the bytes of the raw path; a server behind the verifier routes on
the decoded ones. On valid paths the two agree: a complete escape never straddles the
end of a prefix, no escape stands for a separator, and no segment decodes to a dot
segment. So the decoded path extends the decoded prefix at a segment boundary, and there
is nothing left in it for a router to normalise.
-/

namespace SigV4

open Outcome Ascii Percent Spec Segments

/-! ## Decoding and segments -/

/-- The last `/` of a path is a `/` of the decoded path. -/
theorem getLast?_decode {q d : Bytes} (hd : Percent.decode q = some d)
    (hlast : q.getLast? = some slash) : d.getLast? = some slash := by
  obtain ⟨_, rfl⟩ := decode_eq_some.mp hd
  rw [← unscan_scan q] at hlast
  cases hts : (scan q).getLast? with
  | none =>
      rw [List.getLast?_eq_none_iff] at hts
      rw [hts] at hlast
      exact absurd hlast (by simp)
  | some t =>
      obtain ⟨ts, hts⟩ := List.getLast?_eq_some_iff.mp hts
      have hhex := scan_hex q t (by rw [hts]; simp)
      rw [hts] at hlast ⊢
      cases t with
      | lit c => simpa [unscan, Token.raw, Token.value] using hlast
      | esc a b =>
          -- an escape ends in a digit
          have hb : b = slash := by simpa [unscan, Token.raw] using hlast
          rw [hb] at hhex
          exact absurd hhex.2 (by decide)

namespace Spec

variable {p q d : Bytes}

/-- The decoded path is rooted, and none of its segments is a dot segment. -/
theorem ValidPath.decoded_segments (h : ValidPath p) (hd : Percent.decode p = some d) :
    d = slash :: d.tail ∧ ∀ e ∈ d.tail.splitOn slash, e ≠ [dot] ∧ e ≠ [dot, dot] := by
  have hfields := h.splitOn_decode hd
  have hcons := hd
  rw [h.eq_cons, decode_cons_ne slash_ne_percent, Option.map_eq_some_iff] at hcons
  obtain ⟨rest, _, rfl⟩ := hcons
  refine ⟨rfl, fun e he => ?_⟩
  rw [show (slash :: rest).splitOn slash = [] :: rest.splitOn slash from
    List.splitOn_append_cons_self_of_not_mem List.not_mem_nil rest, h.splitOn_cons,
    List.map_cons, List.map_cons] at hfields
  have hmem : some e ∈ (p.tail.splitOn slash).map Percent.decode :=
    (List.cons.inj hfields).2 ▸ List.mem_map_of_mem he
  obtain ⟨s, hs, hse⟩ := List.mem_map.mp hmem
  have hok := h.segments s hs
  unfold segmentOk at hok
  rw [hse] at hok
  simpa using hok

/-- **There are no dot segments** in the decoded path. -/
theorem ValidPath.removeDotSegments_decode (h : ValidPath p) (hd : Percent.decode p = some d) :
    removeDotSegments slash dot d = d := by
  obtain ⟨hcons, hsegments⟩ := h.decoded_segments hd
  refine removeDotSegments_eq_self ?_ hsegments
  rw [hcons]
  rfl

/-- **There is nothing to merge** in the decoded path. -/
theorem ValidPath.mergeSeparators_decode (h : ValidPath p) (hd : Percent.decode p = some d) :
    mergeSeparators slash d = d := by
  obtain ⟨_, rfl⟩ := decode_eq_some.mp hd
  refine mergeSeparators_eq_self ?_
  intro a b hab
  -- two slashes of the decoded path are two slashes of the path
  obtain ⟨ta, ts, hscan, _, hts⟩ := List.map_eq_append_iff.mp hab
  obtain ⟨t₁, ts, rfl, hv₁, hts⟩ := List.map_eq_cons_iff.mp hts
  obtain ⟨t₂, tb, rfl, hv₂, _⟩ := List.map_eq_cons_iff.mp hts
  obtain rfl := lit_of_value_slash (h.tokens t₁ (by rw [hscan]; simp)) hv₁
  obtain rfl := lit_of_value_slash (h.tokens t₂ (by rw [hscan]; simp)) hv₂
  have hp := unscan_scan p
  rw [hscan] at hp
  refine h.noDoubleSlash (unscan ta) (unscan tb) ?_
  rw [← hp]
  simp [unscan, Token.raw]

/-- **Decoding keeps a path inside its prefix.** -/
theorem Extends.decode {e : Bytes} (h : Extends p q)
    (hp : Percent.decode p = some d) (he : Percent.decode q = some e) : Extends d e := by
  obtain ⟨suffix, rfl, hsuffix⟩ := h
  rw [decode_append he, Option.map_eq_some_iff] at hp
  obtain ⟨s, hs, rfl⟩ := hp
  refine ⟨s, rfl, ?_⟩
  rcases hsuffix with rfl | hlast | hhead
  · exact Or.inl (Option.some.inj hs).symm
  · exact Or.inr (Or.inl (getLast?_decode he hlast))
  · cases suffix with
    | nil => exact absurd hhead (by simp)
    | cons c rest =>
        obtain rfl := Option.some.inj hhead
        rw [decode_cons_ne slash_ne_percent, Option.map_eq_some_iff] at hs
        obtain ⟨rest, _, rfl⟩ := hs
        exact Or.inr (Or.inr rfl)

end Spec

/--
**A path that is allowed stays inside a prefix**, decoded, merged and resolved: its
decoded form extends that of a configured prefix at a segment boundary, and neither
merging separators nor resolving dot segments changes it.
-/
theorem path_contained {C : Crypto} {settings : Settings} {credentials : List Credential}
    {v : Verifier} (hnew : Verifier.new C settings credentials = ok v) {credential : Credential}
    (hmem : credential ∈ credentials) (hnonempty : ∃ q ∈ credential.allowedPrefixes, q ≠ [])
    {c : CompiledCredential}
    (hc : v.state.credentials.lookup credential.accessKey.trim = some c) {p : Bytes}
    (hp : validateRawPath p = ok ()) (hallowed : c.pathAllowed p = true) :
    ∃ q ∈ credential.allowedPrefixes, q ≠ [] ∧ ∃ d e, Percent.decode p = some d
      ∧ Percent.decode q = some e ∧ Extends d e ∧ mergeSeparators slash d = d
      ∧ removeDotSegments slash dot d = d
      ∧ Extends (removeDotSegments slash dot (mergeSeparators slash d)) e := by
  have hstate := compileState_eq_ok (new_eq_ok.mp hnew)
  have hpath := validateRawPath_eq_ok.mp hp
  -- the access key names this credential, for no two have the same
  obtain ⟨credential', hmem', hkey, hcompile⟩ := (hstate.installed.find _ _).mp hc
  obtain rfl : credential' = credential :=
    List.inj_on_of_nodup_map hstate.installed.distinct hmem' hmem hkey
  have hcred := compileCredential_eq_ok hcompile
  obtain ⟨q₀, hq₀, hne₀⟩ := hnonempty
  rcases pathAllowed_iff.mp hallowed with hnil | ⟨q, hq, hext⟩
  · have hin := (hcred.allowedPrefixes q₀).mpr ⟨hne₀, hq₀⟩
    rw [hnil] at hin
    exact absurd hin List.not_mem_nil
  · obtain ⟨hne, hconf⟩ := (hcred.allowedPrefixes q).mp hq
    have hvalid := hcred.validPrefixes q hq
    obtain ⟨d, hd⟩ := Option.isSome_iff_exists.mp (decode_isSome.mpr hpath.wellFormed)
    obtain ⟨e, he⟩ := Option.isSome_iff_exists.mp (decode_isSome.mpr hvalid.wellFormed)
    have hinside := hext.decode hd he
    have hmerge := hpath.mergeSeparators_decode hd
    have hdots := hpath.removeDotSegments_decode hd
    exact ⟨q, hconf, hne, d, e, hd, he, hinside, hmerge, hdots, by rw [hmerge, hdots]; exact hinside⟩

theorem path_contained_sample :
    ∃ q ∈ sampleCredential.allowedPrefixes, q ≠ [] ∧ ∃ d e,
      Percent.decode (bytes "/bucket/a%20%2E%2e./%2e%2e%2e/") = some d
        ∧ Percent.decode q = some e ∧ Extends d e ∧ mergeSeparators slash d = d
        ∧ removeDotSegments slash dot d = d
        ∧ Extends (removeDotSegments slash dot (mergeSeparators slash d)) e := by
  have hfound : (sampleVerifier.state.credentials.lookup sampleCredential.accessKey.trim).any
      (·.pathAllowed (bytes "/bucket/a%20%2E%2e./%2e%2e%2e/")) = true := by rfl
  obtain ⟨c, hc, hallowed⟩ := (Option.any_eq_true _ _).mp hfound
  have hnonempty : ∃ q ∈ sampleCredential.allowedPrefixes, q ≠ [] :=
    ⟨_, List.mem_singleton.mpr rfl, by decide⟩
  exact path_contained sample_new (List.mem_singleton.mpr rfl) hnonempty hc (by rfl) hallowed

end SigV4
