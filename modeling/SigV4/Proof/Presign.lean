import SigV4.Presigner.Presign
import SigV4.Proof.Path
import SigV4.Proof.Query
import SigV4.Proof.Sign
import SigV4.Spec.Presigner

/-!
# What the presigner computes

The presigner checks nothing, so its functions meet the specification only where their input is
well formed: there its unchecked decoder decodes, its query is the canonical query string, its path
the canonical path, and what it signs is what the specification says is signed.
-/

namespace SigV4.Presigner

open Outcome Ascii Percent Spec

variable {ε : Type}

/-! ## Text -/

theorem format_bytes (parts : List Str) : (format parts).bytes = parts.flatMap Str.bytes := by
  induction parts with
  | nil => rfl
  | cons part parts ih =>
      show part.bytes ++ (format parts).bytes = _
      rw [ih, List.flatMap_cons]

theorem join_bytes (sep : Str) : ∀ parts : List Str,
    (join sep parts).bytes = sep.bytes.intercalate (parts.map Str.bytes)
  | [] => rfl
  | [part] => by
      rw [join, List.map_singleton, List.intercalate_singleton]
  | part :: next :: parts => by
      show part.bytes ++ (sep.bytes ++ (join sep (next :: parts)).bytes) = _
      rw [join_bytes sep (next :: parts)]
      simp only [List.map_cons]
      rw [List.intercalate_cons_cons, List.append_assoc]

/-! ## Encoding -/

theorem uriEncode_eq (value : Bytes) : uriEncode (ε := ε) value = ok (encode value) := by
  unfold uriEncode
  rw [foldlM_ok (g := fun (out : Bytes) (c : UInt8) => out ++ encodeByte c),
    foldl_append_flatMap encodeByte]
  · rfl
  · intro out c _
    rw [isUnreserved_eq, writeEscapedByte_eq]
    unfold encodeByte
    cases unreserved c <;> rfl

theorem encode_valid (v : Bytes) : Utf8.Valid (encode v) := by
  refine Utf8.valid_of_ascii fun b hb => ?_
  have hascii : ∀ b : UInt8, encodedByte b = true → b < 0x80 := by decide +kernel
  exact hascii b (encodedByte_of_mem b hb)

/-- The encoding is text, so `expect` does not panic. -/
theorem uriEncodeStr_eq (value : Str) :
    uriEncodeStr (ε := ε) value = ok ⟨encode value.bytes, encode_valid _⟩ := by
  unfold uriEncodeStr
  rw [uriEncode_eq, ok_bind, Str.fromUtf8_of_valid (encode_valid _), expect_some]

theorem hexLower_eq (bs : Bytes) : ∃ text : Str,
    hexLower (ε := ε) bs = ok text ∧ text.bytes = Hex.encode bs := by
  have hfold : ∀ (bs : Bytes) (out : Str), ∃ text : Str, text.bytes = out.bytes ++ Hex.encode bs
      ∧ bs.foldlM (fun (out : Str) (b : UInt8) => do
          let h ← SigV4.hexLower (ε := ε) (b >>> 4)
          let l ← SigV4.hexLower (b &&& 0x0F)
          ok ((out.push (Char.ofNat h.toNat)).push (Char.ofNat l.toNat))) out = ok text := by
    intro bs
    induction bs with
    | nil => exact fun out => ⟨out, by simp, rfl⟩
    | cons b bs ih =>
        intro out
        have hh := Hex.digit_lt _ (shift_lt b)
        have hl := Hex.digit_lt _ (mask_lt b)
        obtain ⟨text, hbytes, hfold⟩ := ih ((out.push (Char.ofNat (Hex.digit (b >>> 4)).toNat)).push
          (Char.ofNat (Hex.digit (b &&& 0x0F)).toNat))
        refine ⟨text, ?_, ?_⟩
        · rw [hbytes, push_ascii hl, push_ascii hh, Hex.encode_cons]
          simp [Hex.pair]
        · rw [List.foldlM_cons, SigV4.hexLower_eq (shift_lt b), ok_bind,
            SigV4.hexLower_eq (mask_lt b), ok_bind, ok_bind]
          exact hfold
  obtain ⟨text, hbytes, hfold⟩ := hfold bs .empty
  exact ⟨text, hfold, hbytes⟩

/-- **The unchecked decoder** decodes what is well formed: from each index, the rest of the
reading. -/
theorem percentDecode_of_decode {v d : Bytes} (h : Percent.decode v = some d) :
    percentDecode (ε := ε) v = ok d := by
  obtain ⟨hwf, rfl⟩ := decode_eq_some.mp h
  suffices hloop : loop (percentDecodeBody (ε := ε) v) (v.length + 1) (0, [])
      = ok ([] ++ (scan (v.drop 0)).map Token.value) by
    unfold percentDecode
    rw [hloop, List.drop_zero]
    rfl
  refine loop_eq (f := fun s => ok (s.2 ++ (scan (v.drop s.1)).map Token.value))
    (μ := fun s => v.length - s.1) (I := fun s => WellFormed (v.drop s.1)) ?_ (v.length + 1) (0, [])
    (by rwa [List.drop_zero]) (by dsimp only; omega)
  rintro ⟨i, out⟩ hi
  dsimp only at hi ⊢
  unfold percentDecodeBody
  dsimp only
  rcases Nat.lt_or_ge i v.length with hlt | hge
  · obtain ⟨c, _, hd⟩ := drop_cons_of_lt hlt
    rw [hd] at hi
    refine Or.inl ?_
    rw [if_pos hlt, index_of_drop hd, ok_bind, hd]
    by_cases hc : c = percent
    · -- the escape is complete
      obtain ⟨a, b, rest, hrest, ha, hb⟩ : ∃ a b rest, v.drop (i + 1) = a :: b :: rest
          ∧ isAsciiHexdigit a = true ∧ isAsciiHexdigit b = true := by
        subst hc
        rcases scan_cases percent (v.drop (i + 1)) with ⟨a, b, rest, _, hr, ha, hb, _⟩ | ⟨hno, _⟩
        · exact ⟨a, b, rest, hr, ha, hb⟩
        · exact absurd hi (not_wellFormed_of_hexPair (hno rfl))
      rw [hrest] at hi hd
      subst hc
      have hd3 : v.drop (i + 3) = rest := by
        have := congrArg (List.drop 2) hrest
        rwa [List.drop_drop] at this
      refine ⟨(i + 3, out ++ [hexVal a <<< 4 ||| hexVal b]), ?_, ?_, ?_, ?_⟩
      · rw [if_neg (by simp), escapedByte_eq hd ha hb, ok_bind]
      · dsimp only
        rw [hd3]
        exact (wellFormed_esc ha hb).mp hi
      · dsimp only
        omega
      · dsimp only
        rw [hd3, hrest, scan_esc ha hb, List.map_cons, List.append_assoc]
        rfl
    · refine ⟨(i + 1, out ++ [c]), ?_, ?_, ?_, ?_⟩
      · rw [if_pos (by simpa using hc)]
      · exact (wellFormed_cons_ne hc).mp hi
      · dsimp only
        omega
      · dsimp only
        rw [scan_ne hc, List.map_cons, List.append_assoc]
        rfl
  · refine Or.inr (Or.inl ⟨out, ?_, ?_⟩)
    · rw [if_neg (by omega)]
    · rw [List.drop_eq_nil_of_le hge]
      simp

/-! ## Canonical forms -/

theorem testCanonicalQueryPart_eq {part : Bytes} {p : Pair} (h : decodePiece part = some p)
    (ps : List Pair) :
    testCanonicalQueryPart (ε := ε) (paramsOf ps) part = ok (paramsOf (ps ++ [p])) := by
  obtain ⟨hname, hvalue⟩ := decodePiece_eq_some.mp h
  unfold testCanonicalQueryPart
  rw [cutPart_eq, ok_bind]
  dsimp only
  rw [percentDecode_of_decode hname, ok_bind, percentDecode_of_decode hvalue, ok_bind,
    paramsOf_append]
  by_cases hs : p.1 = xAmzSignature
  · have hnone : paramsOf [p] = [] := by
      unfold paramsOf signed
      rw [List.filter_cons_of_neg (by rw [hs]; decide)]
      rfl
    rw [if_pos (by rw [hs]; rfl), hnone, List.append_nil]
  · have hone : paramsOf [p] = [⟨encode p.1, encode p.2⟩] := by
      unfold paramsOf signed
      rw [List.filter_cons_of_pos (p := fun q : Pair => q.1 != Known.signature.name)
        (bne_iff_ne.mpr hs)]
      rfl
    rw [if_neg (by simpa using hs), uriEncode_eq, ok_bind, uriEncode_eq, ok_bind, hone]

theorem foldlM_testCanonicalQueryPart : ∀ {parts : List Bytes} {qs : List Pair} (ps : List Pair),
    parts.map decodePiece = qs.map some →
    parts.foldlM (testCanonicalQueryPart (ε := ε)) (paramsOf ps) = ok (paramsOf (ps ++ qs))
  | [], qs, ps, h => by
      obtain rfl := List.map_eq_nil_iff.mp h.symm
      rw [List.append_nil]
      rfl
  | part :: parts, qs, ps, h => by
      rw [List.map_cons] at h
      obtain ⟨q, qs, rfl, hq, hqs⟩ := List.map_eq_cons_iff.mp h.symm
      rw [List.foldlM_cons, testCanonicalQueryPart_eq hq.symm, ok_bind,
        foldlM_testCanonicalQueryPart (ps ++ [q]) hqs.symm, List.append_assoc]
      rfl

/-- **The two canonical queries agree**, on a query that is not empty. -/
theorem testCanonicalQuery_eq {raw : Bytes} {ps : List Pair} (hne : raw ≠ [])
    (h : pairs raw = some ps) : testCanonicalQuery (ε := ε) raw = ok (canonicalString ps) := by
  have hpieces : (raw.splitOn amp).map decodePiece = ps.map some := by
    have hmap := pairs_eq_some_iff.mp h
    unfold pieces at hmap
    rwa [if_neg hne] at hmap
  have hfold := foldlM_testCanonicalQueryPart (ε := ε) [] hpieces
  rw [List.nil_append] at hfold
  unfold testCanonicalQuery
  have hempty : paramsOf [] = [] := rfl
  rw [← hempty, hfold, ok_bind, sortParams_eq, writeParams_eq, List.map_map]
  rfl

theorem testCanonicalPath_eq (rawPath : Bytes) :
    testCanonicalPath (ε := ε) rawPath = ok (canonicalPath rawPath) :=
  canonicalUriLoop_eq rawPath

/-! ## Queries -/

/-- `name=value`. -/
def RawQueryParam.write (q : RawQueryParam) : Bytes := q.name.bytes ++ equals :: q.value.bytes

/-- The parameter is written so that it stands for the pair, and may stand in a URI. -/
structure RawQueryParam.Spells (q : RawQueryParam) (p : Pair) : Prop where
  name : Percent.decode q.name.bytes = some p.1
  value : Percent.decode q.value.bytes = some p.2
  cut : equals ∉ q.name.bytes
  clean : ∀ b ∈ q.name.bytes ++ q.value.bytes, b ∉ [amp, cr, lf, tab, space, hash]

/-- Encoded text spells what it encodes. -/
theorem spells_of_encode {q : RawQueryParam} {p : Pair} (hname : q.name.bytes = encode p.1)
    (hvalue : q.value.bytes = encode p.2) : q.Spells p where
  name := by rw [hname, decode_encode]
  value := by rw [hvalue, decode_encode]
  cut := by
    rw [hname]
    exact not_mem_encode rfl _
  clean := by
    intro b hb hmem
    rw [hname, hvalue, ← encode_append] at hb
    refine not_mem_encode ?_ _ hb
    simp only [List.mem_cons, List.not_mem_nil, or_false] at hmem
    rcases hmem with rfl | rfl | rfl | rfl | rfl | rfl <;> rfl

/-- So does unreserved text. -/
theorem spells_of_unreserved {q : RawQueryParam} {p : Pair} (hname : q.name.bytes = p.1)
    (hvalue : q.value.bytes = p.2) (hn : p.1.all unreserved = true)
    (hv : p.2.all unreserved = true) : q.Spells p :=
  spells_of_encode (by rw [hname, encode_of_unreserved hn])
    (by rw [hvalue, encode_of_unreserved hv])

namespace RawQueryParam.Spells

variable {q : RawQueryParam} {p : Pair}

theorem mem_write (h : q.Spells p) {b : UInt8} (hb : b ∈ q.write) :
    b ∉ [amp, cr, lf, tab, space, hash] := by
  rcases List.mem_append.mp hb with hb | hb
  · exact h.clean b (List.mem_append_left _ hb)
  · rcases List.mem_cons.mp hb with rfl | hb
    · decide
    · exact h.clean b (List.mem_append_right _ hb)

theorem decodePiece (h : q.Spells p) : decodePiece q.write = some p := by
  have hname : pieceName q.write = q.name.bytes := field_append_cons h.cut
  have hvalue : pieceValue q.write = q.value.bytes := by
    show q.write.drop ((pieceName q.write).length + 1) = _
    rw [hname]
    unfold RawQueryParam.write
    simp
  rw [decodePiece_eq_some, hname, hvalue]
  exact ⟨h.name, h.value⟩

end RawQueryParam.Spells

variable {params : List RawQueryParam} {ps : List Pair}

theorem exists_mem_of_forall₂ {α β : Type} {R : α → β → Prop} {l : List α} {m : List β}
    (h : List.Forall₂ R l m) : ∀ a ∈ l, ∃ b ∈ m, R a b := by
  induction h with
  | nil => exact fun _ ha => absurd ha List.not_mem_nil
  | @cons a b l m hr _ ih =>
      refine List.forall_mem_cons.mpr ⟨⟨b, List.mem_cons_self, hr⟩, fun x hx => ?_⟩
      obtain ⟨y, hy, hxy⟩ := ih x hx
      exact ⟨y, List.mem_cons_of_mem _ hy, hxy⟩

theorem joinRawQuery_bytes (params : List RawQueryParam) :
    (joinRawQuery params).bytes = [amp].intercalate (params.map RawQueryParam.write) := by
  unfold joinRawQuery
  rw [join_bytes, List.map_map]
  refine congrArg _ (List.map_congr_left fun q _ => ?_)
  show (format _).bytes = _
  rw [format_bytes]
  simp only [List.flatMap_cons, List.flatMap_nil, List.append_nil]
  rfl

theorem mem_joinRawQuery (h : List.Forall₂ RawQueryParam.Spells params ps) {b : UInt8}
    (hb : b ∈ (joinRawQuery params).bytes) : b ∉ [cr, lf, tab, space, hash] := by
  rw [joinRawQuery_bytes] at hb
  rcases mem_intercalate hb with rfl | ⟨v, hv, hb⟩
  · decide
  · obtain ⟨q, hq, rfl⟩ := List.mem_map.mp hv
    obtain ⟨p, _, hspells⟩ := exists_mem_of_forall₂ h q hq
    exact fun hmem => hspells.mem_write hb (List.mem_cons_of_mem _ hmem)

/-- **Splitting undoes joining**, where there is something to join. -/
theorem splitOn_joinRawQuery (hne : params ≠ []) (h : ∀ q ∈ params, amp ∉ q.write) :
    (joinRawQuery params).bytes.splitOn amp = params.map RawQueryParam.write := by
  rw [joinRawQuery_bytes]
  refine List.splitOn_intercalate amp ?_ (by simpa using hne)
  intro v hv
  obtain ⟨q, hq, rfl⟩ := List.mem_map.mp hv
  exact h q hq

theorem amp_not_mem_write (h : List.Forall₂ RawQueryParam.Spells params ps) :
    ∀ q ∈ params, amp ∉ q.write := by
  intro q hq hb
  obtain ⟨p, _, hspells⟩ := exists_mem_of_forall₂ h q hq
  exact hspells.mem_write hb List.mem_cons_self

theorem joinRawQuery_ne_nil (hne : params ≠ []) : (joinRawQuery params).bytes ≠ [] := by
  cases params with
  | nil => exact absurd rfl hne
  | cons q params =>
      rw [joinRawQuery_bytes, List.map_cons, intercalate_eq_flatMap]
      unfold RawQueryParam.write
      simp

/-- **What is joined is read piece by piece.** -/
theorem pairs_joinRawQuery (h : List.Forall₂ RawQueryParam.Spells params ps) :
    pairs (joinRawQuery params).bytes = some ps := by
  have hdecode : (params.map RawQueryParam.write).map decodePiece = ps.map some := by
    induction h with
    | nil => rfl
    | cons hq _ ih => rw [List.map_cons, List.map_cons, List.map_cons, hq.decodePiece, ih]
  rw [pairs_eq_some_iff, ← hdecode]
  by_cases hne : params = []
  · subst hne
    rfl
  · unfold pieces
    rw [if_neg (joinRawQuery_ne_nil hne), splitOn_joinRawQuery hne (amp_not_mem_write h)]

/-! ## URIs -/

/-- `path?query`. -/
def writtenUri (path : Str) (params : List RawQueryParam) : Str :=
  format [path, .lit "?", joinRawQuery params]

theorem writtenUri_bytes (path : Str) (params : List RawQueryParam) :
    (writtenUri path params).bytes = path.bytes ++ question :: (joinRawQuery params).bytes := by
  unfold writtenUri
  rw [format_bytes]
  simp only [List.flatMap_cons, List.flatMap_nil, List.append_nil]
  rfl

/-- The bytes are a URI of this path and these pairs. -/
structure Written (u path : Bytes) (ps : List Pair) : Prop where
  uri : ValidUri u
  path : uriPath u = path
  pairs : pairs (uriQuery u) = some ps

/-- **A written URI is read back.** -/
theorem written_writtenUri {path : Str} (hpath : ValidUri path.bytes)
    (hquestion : question ∉ path.bytes) (h : List.Forall₂ RawQueryParam.Spells params ps) :
    Written (writtenUri path params).bytes path.bytes ps := by
  have hcut : uriPath (path.bytes ++ question :: (joinRawQuery params).bytes) = path.bytes :=
    field_append_cons hquestion
  rw [writtenUri_bytes]
  refine ⟨⟨?_, ?_, ?_⟩, hcut, ?_⟩
  · have hrooted := hpath.rooted
    cases hbytes : path.bytes with
    | nil =>
        rw [hbytes] at hrooted
        exact absurd hrooted (by simp)
    | cons c rest =>
        rw [hbytes] at hrooted
        exact hrooted
  · intro b hb
    rcases List.mem_append.mp hb with hb | hb
    · exact hpath.clean b hb
    · rcases List.mem_cons.mp hb with rfl | hb
      · decide
      · exact mem_joinRawQuery h hb
  · rw [hcut]
    have hvalid := hpath.path
    unfold uriPath at hvalid
    rwa [field_eq_of_not_mem hquestion] at hvalid
  · show pairs ((path.bytes ++ _).drop ((uriPath _).length + 1)) = _
    rw [hcut, ← pairs_joinRawQuery h]
    simp

/-! ## Signing -/

/-- What is asked to be signed, with the parameters decoded. -/
def PresignInput.presign (input : PresignInput) (extras : List Pair) : Presign where
  method := input.method
  path := input.path.bytes
  host := input.host
  region := input.region
  amzDate := input.signTime.timestamp
  expires := input.expires.secs
  extras

/-- The input names the credential and its secret, the method as it is compared and one instant,
and its own parameters are well formed. -/
structure PresignInput.Of (input : PresignInput) (c : Credential) (i : Instant)
    (extras : List Pair) : Prop where
  accessKey : input.accessKey.bytes = c.accessKey.trim.bytes
  secretKey : input.secretKey = c.secretKey
  method : normalMethod input.method = input.method
  date : input.signTime.date.bytes = i.date
  timestamp : input.signTime.timestamp.bytes = i.write
  extra : List.Forall₂ RawQueryParam.Spells input.extra extras

variable {C : Crypto} {input : PresignInput} {c : Credential} {i : Instant} {extras : List Pair}

theorem unreserved_of_digits {v : Bytes} (h : v.all isAsciiDigit = true) :
    v.all unreserved = true := by
  refine List.all_eq_true.mpr fun b hb => ?_
  have hdigit := List.all_eq_true.mp h b hb
  unfold unreserved isAsciiAlphanumeric
  simp [hdigit]

theorem unreserved_write (i : Instant) : i.write.all unreserved = true := by
  unfold Instant.write
  rw [List.all_append, List.all_cons, List.all_append, unreserved_of_digits i.date_digits,
    unreserved_of_digits i.time_digits]
  rfl

theorem unreserved_hex (bs : Bytes) : (Hex.encode bs).all unreserved = true := by
  have hdigit : ∀ n : UInt8, n < 16 → unreserved (Hex.digit n) = true :=
    forall_lt_sixteen (by decide)
  induction bs with
  | nil => rfl
  | cons b bs ih =>
      rw [Hex.encode_cons, List.all_append, ih]
      unfold Hex.pair
      simp [hdigit _ (shift_lt b), hdigit _ (mask_lt b)]

theorem fields_date (h : input.Of c i extras) : ((input.presign extras).fields c).date = i.date := by
  show input.signTime.timestamp.bytes.take 8 = i.date
  rw [h.timestamp]
  rfl

theorem credentialScope_bytes (h : input.Of c i extras) :
    input.credentialScope.bytes = ((input.presign extras).fields c).scope := by
  unfold ScopeFields.scope
  rw [fields_date h]
  unfold PresignInput.credentialScope
  rw [format_bytes]
  simp only [List.flatMap_cons, List.flatMap_nil, h.date]
  simp
  rfl

/-- The text of the credential, encoded. -/
def PresignInput.credential (input : PresignInput) : Str :=
  ⟨encode (format [input.accessKey, .lit "/", input.credentialScope]).bytes, encode_valid _⟩

theorem params_ne_nil (input : PresignInput) : input.params input.credential ≠ [] := by
  unfold PresignInput.params
  simp

/-- Besides, the signing names are written as they are. -/
structure RawQueryParam.Plain (q : RawQueryParam) (p : Pair) : Prop extends q.Spells p where
  plain : isKnown p.1 = true → q.name.bytes = p.1

theorem plain_of_unknown {extra : List RawQueryParam}
    (h : List.Forall₂ RawQueryParam.Spells extra extras)
    (hother : ∀ p ∈ extras, isKnown p.1 = false) :
    List.Forall₂ RawQueryParam.Plain extra extras := by
  induction h with
  | nil => exact .nil
  | cons hq _ ih =>
      obtain ⟨hp, hrest⟩ := List.forall_mem_cons.mp hother
      exact .cons ⟨hq, fun hknown => absurd (hp.symm.trans hknown) Bool.false_ne_true⟩ (ih hrest)

/-- The five parameters that are the presigner's own. -/
theorem plain_own (h : input.Of c i extras) :
    List.Forall₂ RawQueryParam.Plain ((input.params input.credential).take 5)
      (((input.presign extras).parameters c).take 5) := by
  refine .cons ⟨?_, fun _ => rfl⟩ (.cons ⟨?_, fun _ => rfl⟩ (.cons ⟨?_, fun _ => rfl⟩
    (.cons ⟨?_, fun _ => rfl⟩ (.cons ⟨?_, fun _ => rfl⟩ .nil))))
  · exact spells_of_unreserved rfl rfl (by rfl) (by rfl)
  · refine spells_of_encode (by rfl) ?_
    show encode (format _).bytes = encode _
    rw [format_bytes]
    simp only [List.flatMap_cons, List.flatMap_nil, List.append_nil, h.accessKey,
      credentialScope_bytes h]
    rfl
  · refine spells_of_unreserved rfl rfl (by rfl) ?_
    show input.signTime.timestamp.bytes.all unreserved = true
    rw [h.timestamp]
    exact unreserved_write i
  · exact spells_of_unreserved rfl rfl (by rfl) (unreserved_of_digits (Decimal.write_digits _))
  · exact spells_of_unreserved rfl rfl (by rfl) (by rfl)

/-- The parameters spell what is asked to be signed. -/
theorem spells_params (h : input.Of c i extras) : List.Forall₂ RawQueryParam.Spells
    (input.params input.credential) ((input.presign extras).parameters c) :=
  List.rel_append ((plain_own h).imp fun _ _ hq => hq.toSpells) h.extra

/-- Where the input has no signing parameters of its own, none is hidden among them. -/
theorem plain_params (h : input.Of c i extras) (hother : ∀ p ∈ extras, isKnown p.1 = false) :
    List.Forall₂ RawQueryParam.Plain (input.params input.credential)
      ((input.presign extras).parameters c) :=
  List.rel_append (plain_own h) (plain_of_unknown h.extra hother)

theorem joinRawQuery_snoc {params : List RawQueryParam} (hne : params ≠ []) (q : RawQueryParam) :
    (joinRawQuery (params ++ [q])).bytes = (joinRawQuery params).bytes ++ amp :: q.write := by
  cases params with
  | nil => exact absurd rfl hne
  | cons p params =>
      rw [joinRawQuery_bytes, joinRawQuery_bytes, List.cons_append, List.map_cons, List.map_cons,
        intercalate_eq_flatMap, intercalate_eq_flatMap, List.map_append, List.flatMap_append,
        List.append_assoc]
      simp

theorem testSignature_eq (C : Crypto) (secretKey date region : Str) (message : Bytes) :
    testSignature C secretKey date region testService message
      = C.hmacSha256 (signingKey C secretKey.bytes date.bytes region.bytes (bytes "s3")).val
        message := by
  have hseed : (format [.lit "AWS4", secretKey]).bytes = bytes "AWS4" ++ secretKey.bytes := by
    rw [format_bytes]
    simp
  unfold testSignature
  rw [hseed]
  rfl

theorem canonicalRequest_presigned (h : input.Of c i extras) (query : Bytes) :
    input.method.bytes ++ [lf] ++ canonicalPath input.path.bytes ++ [lf] ++ query
        ++ bytes "\nhost:" ++ input.host.trim.toAsciiLowercase.bytes
        ++ bytes "\n\nhost\nUNSIGNED-PAYLOAD"
      = canonicalRequest (normalMethod input.method).bytes (canonicalPath input.path.bytes) query
        (normalHost input.host).bytes := by
  have hhost : bytes "\nhost:" = lf :: bytes "host:" := rfl
  rw [canonicalRequest_eq, h.method, hhost]
  simp only [List.append_assoc, List.cons_append, List.nil_append]
  rfl

theorem stringToSign_presigned (h : input.Of c i extras) {hash : Str} {digest : Digest}
    (hhash : hash.bytes = Hex.encode digest.val) :
    (format [.lit "AWS4-HMAC-SHA256\n", input.signTime.timestamp, .lit "\n",
        input.credentialScope, .lit "\n", hash]).bytes
      = Spec.stringToSign input.signTime.timestamp.bytes ((input.presign extras).fields c).scope
        digest := by
  have halgorithm : bytes "AWS4-HMAC-SHA256\n" = bytes "AWS4-HMAC-SHA256" ++ [lf] := rfl
  have hline : bytes "\n" = [lf] := rfl
  rw [format_bytes, stringToSign_eq_append]
  simp only [List.flatMap_cons, List.flatMap_nil, Str.lit_bytes, halgorithm, hline,
    credentialScope_bytes h, hhash, List.append_assoc, List.cons_append, List.nil_append,
    List.append_nil]

/--
**What the presigner writes.** On a well-formed input it ends, and writes the path, its parameters
and the signature of what the specification says is signed.
-/
theorem presignedUri_eq (C : Crypto) (h : input.Of c i extras) : ∃ sig : Str,
    presignedUri (ε := ε) C input = ok (writtenUri input.path
        (input.params input.credential ++ [qp (.lit "X-Amz-Signature") sig]))
      ∧ sig.bytes = Hex.encode ((input.presign extras).signature C c).val := by
  have hpairs := pairs_joinRawQuery (spells_params h)
  have hne := params_ne_nil input
  have hcredential : uriEncodeStr (ε := ε)
      (format [input.accessKey, .lit "/", input.credentialScope]) = ok input.credential :=
    uriEncodeStr_eq _
  obtain ⟨hash, hhash, hhashBytes⟩ := hexLower_eq (ε := ε) (C.sha256 (canonicalRequest
    (normalMethod input.method).bytes (canonicalPath input.path.bytes)
    (canonicalString ((input.presign extras).parameters c)) (normalHost input.host).bytes)).val
  have hsignature : testSignature C input.secretKey input.signTime.date input.region testService
      (format [.lit "AWS4-HMAC-SHA256\n", input.signTime.timestamp, .lit "\n",
        input.credentialScope, .lit "\n", hash]).bytes = (input.presign extras).signature C c := by
    have hdate : input.signTime.date.bytes = ((input.presign extras).fields c).date :=
      h.date.trans (fields_date h).symm
    rw [testSignature_eq, stringToSign_presigned h hhashBytes, h.secretKey, hdate]
    rfl
  obtain ⟨sig, hsig, hsigBytes⟩ :=
    hexLower_eq (ε := ε) ((input.presign extras).signature C c).val
  refine ⟨sig, ?_, hsigBytes⟩
  unfold presignedUri
  rw [hcredential, ok_bind]
  dsimp only
  rw [testCanonicalPath_eq, ok_bind, testCanonicalQuery_eq (joinRawQuery_ne_nil hne) hpairs, ok_bind,
    canonicalRequest_presigned h, hhash, ok_bind, hsignature, hsig, ok_bind]
  refine congrArg ok (Str.ext ?_)
  rw [format_bytes, writtenUri_bytes, joinRawQuery_snoc hne]
  simp only [List.flatMap_cons, List.flatMap_nil, List.append_nil]
  rfl

end SigV4.Presigner
