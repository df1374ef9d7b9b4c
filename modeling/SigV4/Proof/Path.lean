import SigV4.Proof.Escape
import SigV4.Spec.Path
import SigV4.Verifier.Uri

/-!
# Paths meet their specification

`validate_raw_path` accepts exactly `ValidPath`, `split_original_uri` cuts at the
first `?`, and the path that is signed is `canonicalPath`, on the borrowed fast path
as on the slow one.
-/

namespace SigV4

open Outcome Ascii Percent Spec

variable {ε : Type}

/-! ## `validate_raw_path` -/

theorem hasDoubleSlash_eq_false {p : Bytes} : hasDoubleSlash p = false ↔ noDoubleSlash p := by
  unfold hasDoubleSlash Spec.noDoubleSlash
  induction p with
  | nil => simp
  | cons c p ih =>
      cases p with
      | nil =>
          refine ⟨fun _ a b h => ?_, fun _ => rfl⟩
          have := congrArg List.length h
          simp only [List.length_cons, List.length_nil, List.length_append] at this
          omega
      | cons d p =>
          rw [List.tail_cons, List.zip_cons_cons, List.any_cons, Bool.or_eq_false_iff]
          rw [List.tail_cons] at ih
          rw [ih]
          refine ⟨?_, ?_⟩
          · rintro ⟨hne, hrest⟩ a b h
            cases a with
            | nil =>
                obtain ⟨rfl, h'⟩ := List.cons.inj h
                obtain ⟨rfl, _⟩ := List.cons.inj h'
                exact absurd hne (by decide)
            | cons x a => exact hrest a b (List.cons.inj h).2
          · intro h
            refine ⟨?_, fun a b he => h (c :: a) b (by rw [he]; rfl)⟩
            cases hcd : ((c, d) == (slash, slash)) with
            | false => rfl
            | true =>
                obtain ⟨rfl, rfl⟩ := Prod.mk.inj (eq_of_beq hcd)
                exact absurd rfl (h [] p)

theorem separator_digits {h l : UInt8} (hh : isAsciiHexdigit h = true)
    (hl : isAsciiHexdigit l = true) :
    ((upperHex h == 0x32 && upperHex l == 0x46) || (upperHex h == 0x35 && upperHex l == 0x43))
      = !pathToken (.esc h l) := by
  have hdig : ∀ c : UInt8, isAsciiHexdigit c = true →
      (upperHex c == 0x32) = (hexVal c == 2) ∧ (upperHex c == 0x46) = (hexVal c == 15)
        ∧ (upperHex c == 0x35) = (hexVal c == 5) ∧ (upperHex c == 0x43) = (hexVal c == 12) := by
    decide +kernel
  have hval : ∀ a b : Fin 16,
      ((UInt8.ofNat a == 2 && UInt8.ofNat b == 15) || (UInt8.ofNat a == 5 && UInt8.ofNat b == 12))
        = !((UInt8.ofNat a <<< 4 ||| UInt8.ofNat b != slash)
          && (UInt8.ofNat a <<< 4 ||| UInt8.ofNat b != backslash)) := by
    decide
  have hlt : ∀ c : UInt8, isAsciiHexdigit c = true → (hexVal c).toNat < 16 := by
    intro c hc
    have := hexVal_lt c hc
    rw [UInt8.lt_iff_toNat_lt] at this
    exact this
  have := hval ⟨_, hlt h hh⟩ ⟨_, hlt l hl⟩
  simp only [UInt8.ofNat_toNat] at this
  rw [(hdig h hh).1, (hdig l hl).2.1, (hdig h hh).2.2.1, (hdig l hl).2.2.2, this]
  rfl

/-- The byte loop checks every token. -/
theorem validateEscapes_eq (path : Bytes) :
    loop (validateEscapesBody path) (path.length + 1) (0, ())
      = if (scan path).all pathToken then ok () else exit ⟨⟩ := by
  have hg : ∀ (u : Unit) (t : Token), (fun (_ : Unit) (t : Token) =>
      if pathToken t then ok () else exit (⟨⟩ : UriError)) u t
        = if pathToken t then ok ((fun _ _ => ()) u t) else exit ⟨⟩ := fun _ _ => rfl
  have hloop := scanLoop_eq (v := path) (B := validateEscapesBody path) (f := id)
    (g := fun (_ : Unit) (t : Token) => if pathToken t then ok () else exit (⟨⟩ : UriError))
    (fun i u h l rest hd hh hl => by
      have hd1 := drop_succ_of_drop hd
      have hp : hexPair (path.drop (i + 1)) = true := by
        rw [hd1]; simp [hexPair, hh, hl]
      have hdel : (percent ≤ 0x20 || percent == del) = false := rfl
      unfold validateEscapesBody
      dsimp only
      rw [if_pos (lt_of_drop hd), index_of_drop hd, ok_bind, hdel, if_neg (by simp),
        if_neg (by simp), escapeAt_eq, ok_bind, hp, if_neg (by simp), index_of_drop hd1, ok_bind,
        index_of_drop (drop_succ_of_drop hd1), ok_bind, separator_digits hh hl]
      cases pathToken (.esc h l) <;> rfl)
    (fun i u c rest hd hc => by
      unfold validateEscapesBody
      dsimp only
      rw [if_pos (lt_of_drop hd), index_of_drop hd, ok_bind]
      have htok : pathToken (.lit c) = (!(decide (c ≤ 0x20) || c == del) && c != percent) := by
        have : ∀ c : UInt8, decide (0x20 < c) = !decide (c ≤ 0x20) := by decide +kernel
        simp only [pathToken, this c, Bool.not_or]
        rfl
      rw [htok]
      cases decide (c ≤ 0x20) || c == del with
      | true => rfl
      | false =>
          rw [if_neg (by simp)]
          by_cases hcp : c = percent
          · rw [if_neg (by simp [hcp]), escapeAt_eq, ok_bind, drop_succ_of_drop hd, hc hcp]
            simp [hcp]
          · rw [if_pos (by simp [hcp])]
            simp [hcp])
    (fun i u hi => by
      unfold validateEscapesBody
      dsimp only
      rw [if_neg (by omega)])
    (path.length + 1) 0 () (by omega)
  rw [hloop, List.drop_zero, foldlM_guard hg]
  split <;> rfl

theorem validateSegment_eq (segment : Bytes) :
    validateSegment segment = if segmentOk segment then ok () else exit ⟨⟩ := by
  unfold validateSegment
  cases segment with
  | nil => rfl
  | cons c s =>
      rw [if_pos (show (!(c :: s).isEmpty) = true from rfl)]
      cases hm : List.contains (c :: s) percent with
      | false =>
          -- no escape: the bytes are the decoded bytes
          have hno : percent ∉ c :: s := by
            intro hc
            rw [List.contains_iff_mem.mpr hc] at hm
            exact Bool.noConfusion hm
          rw [Bool.not_false, if_pos rfl]
          unfold segmentOk
          rw [decode_of_not_mem hno]
          dsimp only
          cases h1 : ((c :: s) == [dot]) <;> cases h2 : ((c :: s) == [dot, dot]) <;>
            simp [bne, h1, h2]
      | true =>
          rw [if_neg (by simp), percentDecode_eq]
          unfold segmentOk
          cases Percent.decode (c :: s) with
          | none => rfl
          | some d =>
              dsimp only
              rw [ofOption_some, ok_bind]
              cases h1 : (d == [dot]) <;> cases h2 : (d == [dot, dot]) <;> simp [bne, h1, h2]

/-- The segment loop checks every segment after the first `/`. -/
theorem validateSegments_eq {path : Bytes} (hpos : path ≠ []) :
    loop (validateSegmentsBody path) (path.length + 1) (1, ())
      = if (path.tail.splitOn slash).all segmentOk then ok () else exit ⟨⟩ := by
  have hlen : 1 ≤ path.length := List.length_pos_iff.mpr hpos
  have hg : ∀ (u : Unit) (s : Bytes), (fun (_ : Unit) (s : Bytes) =>
      if segmentOk s then ok () else exit (⟨⟩ : UriError)) u s
        = if segmentOk s then ok ((fun _ _ => ()) u s) else exit ⟨⟩ := fun _ _ => rfl
  have hloop := splitLoop_eq (v := path) (x := slash) (B := validateSegmentsBody path)
    (f := id) (I := fun i => i ≤ path.length)
    (g := fun (_ : Unit) (s : Bytes) => if segmentOk s then ok () else exit (⟨⟩ : UriError))
    (fun i hi => hi)
    (fun i hi hm => by
      have hspec := (field_spec slash (path.drop i)).resolve_left fun hn => hn.1 hm
      have := congrArg List.length hspec
      simp only [List.length_append, List.length_cons, List.length_drop] at this
      omega)
    (fun i u hi => by
      have hfl := field_length_le slash (path.drop i)
      rw [List.length_drop] at hfl
      have htake : (path.drop i).take (field slash (path.drop i)).length
          = field slash (path.drop i) := by
        rcases field_spec slash (path.drop i) with ⟨_, hf⟩ | hs
        · rw [hf, List.take_length]
        · generalize field slash (path.drop i) = f at hs ⊢
          rw [hs]; simp
      unfold validateSegmentsBody
      dsimp only
      rw [if_pos hi, findFrom_eq hi, ok_bind, slice_of_le (by omega) (by omega), ok_bind,
        show i + (field slash (path.drop i)).length - i = (field slash (path.drop i)).length
          by omega, htake, validateSegment_eq])
    (fun i u hi => by
      unfold validateSegmentsBody
      dsimp only
      rw [if_neg (by omega)])
    (path.length + 1) 1 () hlen (by omega)
  rw [hloop, List.drop_one, foldlM_guard hg]
  split <;> rfl

/-- **`validate_raw_path` accepts exactly the valid paths.** -/
theorem validateRawPath_ok {path : Bytes} (h : ValidPath path) : validateRawPath path = ok () := by
  have htok : (scan path).all pathToken = true := List.all_eq_true.mpr h.tokens
  have hseg : (path.tail.splitOn slash).all segmentOk = true := List.all_eq_true.mpr h.segments
  unfold validateRawPath
  rw [h.rooted, hasDoubleSlash_eq_false.mpr h.noDoubleSlash, validateEscapes_eq,
    validateSegments_eq h.ne_nil, if_pos htok, if_pos hseg]
  rfl

theorem validateRawPath_exit {path : Bytes} (h : ¬ValidPath path) :
    validateRawPath path = exit ⟨⟩ := by
  unfold validateRawPath
  by_cases hr : path.head? = some slash
  · have hne : path ≠ [] := by
      rintro rfl
      exact absurd hr (by simp)
    rw [hr, show (some slash != some slash) = false from rfl, exitIf_false, ok_bind]
    cases hd : hasDoubleSlash path with
    | true => rfl
    | false =>
        rw [exitIf_false, ok_bind, validateEscapes_eq, validateSegments_eq hne]
        by_cases ht : (scan path).all pathToken = true
        · rw [if_pos ht, ok_bind]
          refine if_neg fun hs => h ⟨hr, hasDoubleSlash_eq_false.mp hd, ?_, ?_⟩
          · exact List.all_eq_true.mp ht
          · exact List.all_eq_true.mp hs
        · rw [if_neg ht]; rfl
  · rw [show (path.head? != some slash) = true by simpa using hr]; rfl

theorem validateRawPath_eq_ok {path : Bytes} : validateRawPath path = ok () ↔ ValidPath path := by
  refine ⟨?_, ?_⟩
  · intro h
    by_contra hv
    rw [validateRawPath_exit hv] at h
    exact absurd h (by simp)
  · exact validateRawPath_ok

instance (path : Bytes) : Decidable (ValidPath path) :=
  decidable_of_iff _ validateRawPath_eq_ok

theorem validateRawPath_eq (path : Bytes) :
    validateRawPath path = if ValidPath path then ok () else exit ⟨⟩ := by
  by_cases h : ValidPath path
  · rw [if_pos h, validateRawPath_ok h]
  · rw [if_neg h, validateRawPath_exit h]

/-! ## `split_original_uri` -/

theorem forbiddenInUri_iff {b : UInt8} :
    forbiddenInUri b = true ↔ b ∈ [cr, lf, tab, space, hash] := by
  unfold forbiddenInUri
  simp [or_assoc]

theorem length_field_of_mem {sep : UInt8} {v : Bytes} (h : sep ∈ v) :
    (field sep v).length + 1 ≤ v.length := by
  have hspec := (field_spec sep v).resolve_left fun hn => hn.1 h
  have := congrArg List.length hspec
  simp only [List.length_append, List.length_cons] at this
  omega

theorem take_field (sep : UInt8) (v : Bytes) : v.take (field sep v).length = field sep v := by
  rcases field_spec sep v with ⟨_, hf⟩ | hs
  · rw [hf, List.take_length]
  · generalize field sep v = f at hs ⊢
    rw [hs]; simp

theorem cutOriginalUri_eq (u : Bytes) :
    cutOriginalUri (ε := ε) u = ok (uriPath u, uriQuery u) := by
  unfold cutOriginalUri uriPath uriQuery
  rw [findIdx?_field]
  by_cases hm : question ∈ u
  · have hle := length_field_of_mem hm
    rw [if_pos hm]
    dsimp only
    rw [slice_of_le (Nat.zero_le _) (by omega), ok_bind, slice_to_end hle, ok_bind,
      List.drop_zero, Nat.sub_zero, take_field]
  · rw [if_neg hm, field_eq_of_not_mem hm, List.drop_eq_nil_of_le (by omega)]

/-- **`split_original_uri` cuts a served URI at its first `?`** and rejects every other. -/
theorem splitOriginalUri_eq (u : Bytes) [Decidable (ValidUri u)] :
    splitOriginalUri u = if ValidUri u then ok (uriPath u, uriQuery u) else exit ⟨⟩ := by
  unfold splitOriginalUri
  rw [cutOriginalUri_eq, ok_bind]
  dsimp only
  rw [validateRawPath_eq]
  by_cases hr : u.head? = some slash
  · rw [hr, show (some slash != some slash) = false from rfl, exitIf_false, ok_bind]
    cases hf : u.any forbiddenInUri with
    | true =>
        have hno : ¬ValidUri u := by
          intro hv
          obtain ⟨b, hb, hfb⟩ := List.any_eq_true.mp hf
          exact hv.clean b hb (forbiddenInUri_iff.mp hfb)
        rw [if_neg hno]; rfl
    | false =>
        rw [exitIf_false, ok_bind]
        by_cases hp : ValidPath (uriPath u)
        · rw [if_pos hp, ok_bind, if_pos]
          refine ⟨hr, ?_, hp⟩
          intro b hb
          exact fun hc => List.any_eq_false.mp hf b hb (forbiddenInUri_iff.mpr hc)
        · rw [if_neg hp, if_neg fun hv : ValidUri u => hp hv.path]; rfl
  · rw [show (u.head? != some slash) = true by simpa using hr,
      if_neg fun hv : ValidUri u => hr hv.rooted]
    rfl

theorem splitOriginalUri_eq_ok {u path query : Bytes} :
    splitOriginalUri u = ok (path, query)
      ↔ ValidUri u ∧ uriPath u = path ∧ uriQuery u = query := by
  classical
  rw [splitOriginalUri_eq]
  by_cases hu : ValidUri u
  · rw [if_pos hu, Outcome.ok.injEq, Prod.mk.injEq]
    exact ⟨fun h => ⟨hu, h⟩, fun h => h.2⟩
  · rw [if_neg hu]
    exact ⟨fun h => absurd h (by simp), fun h => absurd h.1 hu⟩

/-! ## `canonical_uri_from_valid_path` -/

theorem percentAt_esc {v rest : Bytes} {i : Nat} {h l : UInt8}
    (hd : v.drop i = percent :: h :: l :: rest) (hh : isAsciiHexdigit h = true)
    (hl : isAsciiHexdigit l = true) : percentAt (ε := ε) v i percent = ok true := by
  unfold percentAt
  rw [if_pos (by simp), escapeAt_eq, drop_succ_of_drop hd]
  simp [hexPair, hh, hl]

theorem percentAt_lit {v rest : Bytes} {i : Nat} {c : UInt8} (hd : v.drop i = c :: rest)
    (hc : c = percent → hexPair rest = false) : percentAt (ε := ε) v i c = ok false := by
  unfold percentAt
  by_cases hcp : c = percent
  · rw [if_pos (by simp [hcp]), escapeAt_eq, drop_succ_of_drop hd, hc hcp]
  · rw [if_neg (by simp [hcp])]

/-- A token that the canonical path leaves as it is. -/
def isCanonicalToken : Token → Bool
  | .lit c => c == slash || unreserved c
  | .esc h l => h == upperHex h && l == upperHex l

theorem isCanonicalPath_eq (p : Bytes) :
    isCanonicalPath (ε := ε) p = ok ((scan p).all isCanonicalToken) := by
  have hg : ∀ (u : Unit) (t : Token), (fun (_ : Unit) (t : Token) =>
      if isCanonicalToken t then ok () else exit ()) u t
        = if isCanonicalToken t then ok ((fun _ _ => ()) u t) else exit () := fun _ _ => rfl
  have hloop := scanLoop_eq (v := p) (B := isCanonicalPathBody p) (f := id)
    (g := fun (_ : Unit) (t : Token) => if isCanonicalToken t then ok () else exit ())
    (fun i u h l rest hd hh hl => by
      have hd1 := drop_succ_of_drop hd
      have hpc : (percent == slash || isUnreserved percent) = false := rfl
      have htok : isCanonicalToken (.esc h l) = (h == upperHex h && l == upperHex l) := rfl
      unfold isCanonicalPathBody
      dsimp only
      rw [if_pos (lt_of_drop hd), index_of_drop hd, ok_bind, hpc, if_neg (by simp),
        percentAt_esc hd hh hl, ok_bind, if_pos rfl, index_of_drop hd1, ok_bind,
        index_of_drop (drop_succ_of_drop hd1), ok_bind, htok, bne, bne, ← Bool.not_and]
      cases (h == upperHex h && l == upperHex l) <;> rfl)
    (fun i u c rest hd hc => by
      have htok : isCanonicalToken (.lit c) = (c == slash || unreserved c) := rfl
      unfold isCanonicalPathBody
      dsimp only
      rw [if_pos (lt_of_drop hd), index_of_drop hd, ok_bind, isUnreserved_eq, percentAt_lit hd hc,
        htok]
      cases (c == slash || unreserved c) <;> rfl)
    (fun i u hi => by
      unfold isCanonicalPathBody
      dsimp only
      rw [if_neg (by omega)])
    (p.length + 1) 0 () (by omega)
  unfold isCanonicalPath
  rw [hloop, List.drop_zero, foldlM_guard hg]
  cases (scan p).all isCanonicalToken <;> rfl

theorem canonicalToken_of_isCanonicalToken {t : Token} (h : isCanonicalToken t = true) :
    canonicalToken t = t.raw := by
  cases t with
  | lit c =>
      rw [canonicalToken_lit]
      by_cases hc : c = slash
      · rw [if_pos hc, hc]; rfl
      · have hu : unreserved c = true := by
          simpa [isCanonicalToken, hc] using h
        rw [if_neg hc, encodeByte, if_pos hu]; rfl
  | esc a b =>
      simp only [isCanonicalToken, Bool.and_eq_true, beq_iff_eq, upperHex_eq] at h
      rw [canonicalToken_esc, ← h.1, ← h.2]; rfl

theorem foldl_append_flatMap {α : Type} (f : α → Bytes) :
    ∀ (l : List α) (out : Bytes), l.foldl (fun out a => out ++ f a) out = out ++ l.flatMap f
  | [], out => by simp
  | a :: l, out => by
      rw [List.foldl_cons, foldl_append_flatMap f l, List.flatMap_cons, List.append_assoc]

theorem canonicalPath_eq_self {p : Bytes} (h : (scan p).all isCanonicalToken = true) :
    canonicalPath p = p := by
  have hraw : canonicalPath p = unscan (scan p) := by
    unfold canonicalPath unscan
    refine List.flatMap_congr ?_
    intro t ht
    exact canonicalToken_of_isCanonicalToken (List.all_eq_true.mp h t ht)
  rw [hraw, unscan_scan]

/-- The rewriting loop writes the canonical path. -/
theorem canonicalUriLoop_eq (p : Bytes) :
    loop (canonicalUriBody (ε := ε) p) (p.length + 1) (0, []) = ok (canonicalPath p) := by
  have hloop := scanLoop_eq (ε := ε) (v := p) (B := canonicalUriBody p) (f := id)
    (g := fun (out : Bytes) (t : Token) => ok (out ++ canonicalToken t))
    (fun i out h l rest hd hh hl => by
      have hd1 := drop_succ_of_drop hd
      unfold canonicalUriBody
      dsimp only
      rw [if_pos (lt_of_drop hd), index_of_drop hd, ok_bind, if_neg (by decide),
        percentAt_esc hd hh hl, ok_bind, if_pos rfl, index_of_drop hd1, ok_bind,
        index_of_drop (drop_succ_of_drop hd1), ok_bind, upperHex_eq, upperHex_eq]
      rfl)
    (fun i out c rest hd hc => by
      unfold canonicalUriBody
      dsimp only
      rw [if_pos (lt_of_drop hd), index_of_drop hd, ok_bind, canonicalToken_lit]
      by_cases hs : c = slash
      · rw [if_pos (by simp [hs]), if_pos hs]; rfl
      · rw [if_neg (by simp [hs]), if_neg hs, percentAt_lit hd hc, ok_bind, if_neg (by simp),
          isUnreserved_eq, writeEscapedByte_eq]
        unfold encodeByte
        cases unreserved c <;> rfl)
    (fun i out hi => by
      unfold canonicalUriBody
      dsimp only
      rw [if_neg (by omega)]; rfl)
    (p.length + 1) 0 [] (by omega)
  rw [hloop, List.drop_zero, foldlM_ok (g := fun out t => out ++ canonicalToken t) _ _
    (fun _ _ _ => rfl), foldl_append_flatMap]
  rfl

/-- **The path that is signed is the canonical path**, borrowed or not. -/
theorem canonicalUriFromValidPath_eq (p : Bytes) :
    canonicalUriFromValidPath (ε := ε) p = ok (canonicalPath p) := by
  unfold canonicalUriFromValidPath
  rw [isCanonicalPath_eq, ok_bind]
  cases hcan : (scan p).all isCanonicalToken with
  | true =>
      -- the fast path: every token is its own canonical form
      rw [if_pos rfl, canonicalPath_eq_self hcan]
  | false =>
      rw [if_neg (by simp), canonicalUriLoop_eq]

end SigV4
