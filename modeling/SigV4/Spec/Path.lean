import SigV4.Lib.Percent

/-!
# Paths

What a request path may be and how it is signed, as predicates on the tokens and the
segments of a path. This is the specification: it has no index and no loop.
-/

namespace SigV4.Spec

open Ascii Percent

/-- The bytes of a URI before its first `?`. -/
def uriPath (u : Bytes) : Bytes := field question u

/-- The bytes of a URI after its first `?`. -/
def uriQuery (u : Bytes) : Bytes := u.drop ((field question u).length + 1)

/-- Printable bytes other than `%`, and escapes of anything but the two separators. -/
def pathToken : Token → Bool
  | .lit c => 0x20 < c && c != del && c != percent
  | .esc h l => Token.value (.esc h l) != slash && Token.value (.esc h l) != backslash

/-- A segment that decodes to neither `.` nor `..`. -/
def segmentOk (s : Bytes) : Bool :=
  match Percent.decode s with
  | some d => d != [dot] && d != [dot, dot]
  | none => false

/-- No byte and its successor are both `/`. -/
def noDoubleSlash (p : Bytes) : Prop := ∀ a b, p ≠ a ++ slash :: slash :: b

/-- The paths that are served. -/
structure ValidPath (p : Bytes) : Prop where
  /-- It starts with `/`. -/
  rooted : p.head? = some slash
  /-- It has no empty segment between two slashes. -/
  noDoubleSlash : noDoubleSlash p
  /-- Its bytes are printable, its escapes complete, and none of them is a separator. -/
  tokens : ∀ t ∈ scan p, pathToken t = true
  /-- No segment decodes to a dot segment. -/
  segments : ∀ s ∈ p.tail.splitOn slash, segmentOk s = true

/-- The URIs that are served: rooted, without white space or `#`, with a valid path. -/
structure ValidUri (u : Bytes) : Prop where
  rooted : u.head? = some slash
  clean : ∀ b ∈ u, b ∉ [cr, lf, tab, space, hash]
  path : ValidPath (uriPath u)

/-- A path byte as it is signed: `/` and escapes stay, with upper-case digits. -/
def canonicalToken : Token → Bytes
  | .lit c => if c = slash then [slash] else encodeByte c
  | .esc h l => [percent, toAsciiUppercase h, toAsciiUppercase l]

theorem canonicalToken_lit (c : UInt8) :
    canonicalToken (.lit c) = if c = slash then [slash] else encodeByte c := rfl

theorem canonicalToken_esc (h l : UInt8) :
    canonicalToken (.esc h l) = [percent, toAsciiUppercase h, toAsciiUppercase l] := rfl

/-- The path as it is signed. -/
def canonicalPath (p : Bytes) : Bytes := (scan p).flatMap canonicalToken

/-- A text of `/`, unreserved bytes and escapes with upper-case digits. -/
inductive CanonicalText : Bytes → Prop where
  | nil : CanonicalText []
  | slash {v : Bytes} : CanonicalText v → CanonicalText (slash :: v)
  | unreserved {c : UInt8} {v : Bytes} : unreserved c = true → CanonicalText v →
      CanonicalText (c :: v)
  | escape {h l : UInt8} {v : Bytes} : isAsciiHexdigit h = true → isAsciiLowercase h = false →
      isAsciiHexdigit l = true → isAsciiLowercase l = false → CanonicalText v →
      CanonicalText (percent :: h :: l :: v)

/-! ## What the tokens of a valid path give -/

theorem wf_of_pathToken {t : Token} (h : pathToken t = true) : t.wf = true := by
  cases t with
  | lit c =>
      simp only [pathToken, Bool.and_eq_true] at h
      exact h.2
  | esc a b => rfl

theorem wellFormed_of_pathToken {p : Bytes} (h : ∀ t ∈ scan p, pathToken t = true) :
    WellFormed p :=
  List.all_eq_true.mpr fun t ht => wf_of_pathToken (h t ht)

theorem ValidPath.wellFormed {p : Bytes} (h : ValidPath p) : WellFormed p :=
  wellFormed_of_pathToken h.tokens

theorem ValidPath.ne_nil {p : Bytes} (h : ValidPath p) : p ≠ [] := by
  rintro rfl
  exact absurd h.rooted (by simp)

theorem ValidUri.isEmpty_eq_false {u : Bytes} (h : ValidUri u) : u.isEmpty = false := by
  have hrooted := h.rooted
  cases u with
  | nil => exact absurd hrooted (by simp)
  | cons b u => rfl

theorem ValidPath.eq_cons {p : Bytes} (h : ValidPath p) : p = slash :: p.tail := by
  cases p with
  | nil => exact absurd h.rooted (by simp)
  | cons c p =>
      have := h.rooted
      simp only [List.head?_cons, Option.some.injEq] at this
      rw [this]; rfl

/-! ## Separators -/

/-- The bytes that a server may take for a separator. -/
def isSeparator (b : UInt8) : Bool := b == slash || b == backslash

/-- In a valid path a separator stands for itself. -/
theorem lit_of_separator {t : Token} (h : pathToken t = true) (hv : isSeparator t.value = true) :
    t = .lit t.value := by
  cases t with
  | lit c => rfl
  | esc a b =>
      simp only [pathToken, Bool.and_eq_true, bne_iff_ne] at h
      simp only [isSeparator, Bool.or_eq_true, beq_iff_eq] at hv
      rcases hv with hv | hv
      · exact absurd hv h.1
      · exact absurd hv h.2

theorem lit_of_value_slash {t : Token} (h : pathToken t = true) (hv : t.value = slash) :
    t = .lit slash := by
  have hlit := lit_of_separator h (by rw [hv]; rfl)
  rw [hlit, hv]

/-- **The fields of a valid path**, between separators of either kind or of both, decode to
the fields of the decoded path. -/
theorem ValidPath.splitOnP_decode {p d : Bytes} (h : ValidPath p) (hd : Percent.decode p = some d)
    {q : UInt8 → Bool} (hq : ∀ b, q b = true → isSeparator b = true) :
    (p.splitOnP q).map Percent.decode = (d.splitOnP q).map some := by
  have hdigit : ∀ c, isAsciiHexdigit c = true → isSeparator c = false := by
    intro c hc
    unfold isSeparator
    simp [hexdigit_ne hc (d := slash) rfl, hexdigit_ne hc (d := backslash) rfl]
  have hno : ∀ {b}, isSeparator b = false → q b = false := by
    intro b hb
    cases hqb : q b with
    | false => rfl
    | true => exact absurd (hb.symm.trans (hq b hqb)) Bool.false_ne_true
  refine Percent.splitOnP_decode (hno rfl) (fun c hc => hno (hdigit c hc)) hd ?_
  intro t ht hv
  exact lit_of_separator (h.tokens t ht) (hq _ hv)

/-- The segments of a path whose tokens are good decode to the segments of the decoded path. -/
theorem splitOn_decode_of_pathToken {p d : Bytes} (h : ∀ t ∈ scan p, pathToken t = true)
    (hd : Percent.decode p = some d) :
    (p.splitOn slash).map Percent.decode = (d.splitOn slash).map some :=
  Percent.splitOn_decode rfl (by decide) hd fun t ht hv => lit_of_value_slash (h t ht) hv

/-- **The segments of a valid path** decode to the segments of the decoded path. -/
theorem ValidPath.splitOn_decode {p d : Bytes} (h : ValidPath p)
    (hd : Percent.decode p = some d) :
    (p.splitOn slash).map Percent.decode = (d.splitOn slash).map some :=
  splitOn_decode_of_pathToken h.tokens hd

/-- The segments of a valid path, the empty one before its first `/` included. -/
theorem ValidPath.splitOn_cons {p : Bytes} (h : ValidPath p) :
    p.splitOn slash = [] :: p.tail.splitOn slash := by
  conv => lhs; rw [h.eq_cons]
  exact List.splitOn_append_cons_self_of_not_mem List.not_mem_nil _

/-! ## The canonical path -/

theorem upper_hex (c : UInt8) (hc : isAsciiHexdigit c = true) :
    isAsciiHexdigit (toAsciiUppercase c) = true := by
  rw [← hexDigit_hexVal c hc]
  exact isAsciiHexdigit_hexDigit _ (hexVal_lt c hc)

theorem decode_canonicalToken_append {t : Token} (ht : t.Hex) (hw : t.wf = true) (rest : Bytes) :
    Percent.decode (canonicalToken t ++ rest) = (Percent.decode rest).map (t.value :: ·) := by
  cases t with
  | lit c =>
      rw [canonicalToken_lit]
      by_cases hc : c = slash
      · subst hc
        rw [if_pos rfl]
        exact decode_cons_ne (by decide)
      · rw [if_neg hc]
        exact decode_encodeByte_append c rest
  | esc h l =>
      obtain ⟨hh, hl⟩ := ht
      have hdec := decode_esc (upper_hex h hh) (upper_hex l hl) rest
      have hvalue : Token.value (.esc (toAsciiUppercase h) (toAsciiUppercase l))
          = Token.value (.esc h l) := by
        dsimp only [Token.value]
        rw [hexVal_toAsciiUppercase h hh, hexVal_toAsciiUppercase l hl]
      rw [hvalue] at hdec
      exact hdec

/-- **The canonical path names the same bytes as the path.** -/
theorem decode_canonicalPath {p : Bytes} (h : WellFormed p) :
    Percent.decode (canonicalPath p) = Percent.decode p := by
  have hall : ∀ ts : List Token, (∀ t ∈ ts, t.Hex ∧ t.wf = true) →
      Percent.decode (ts.flatMap canonicalToken) = some (ts.map Token.value) := by
    intro ts
    induction ts with
    | nil => intro _; rfl
    | cons t ts ih =>
        intro hts
        have ht := hts t (by simp)
        rw [List.flatMap_cons, decode_canonicalToken_append ht.1 ht.2,
          ih fun u hu => hts u (List.mem_cons_of_mem _ hu)]
        rfl
  have hw : ∀ t ∈ scan p, t.wf = true := List.all_eq_true.mp h
  unfold canonicalPath
  rw [hall _ fun t ht => ⟨scan_hex p t ht, hw t ht⟩, Percent.decode, if_pos h]

/-- The token a path token is signed as. -/
def signedToken : Token → Token
  | .lit c =>
    if c = slash ∨ unreserved c = true then .lit c
    else .esc (hexDigit (c >>> 4)) (hexDigit (c &&& 0x0F))
  | .esc h l => .esc (toAsciiUppercase h) (toAsciiUppercase l)

theorem signedToken_lit (c : UInt8) :
    signedToken (.lit c) = if c = slash ∨ unreserved c = true then .lit c
      else .esc (hexDigit (c >>> 4)) (hexDigit (c &&& 0x0F)) := rfl

theorem canonicalToken_eq (t : Token) : canonicalToken t = (signedToken t).raw := by
  cases t with
  | lit c =>
      rw [canonicalToken_lit, signedToken_lit, encodeByte]
      by_cases hs : c = slash
      · rw [if_pos hs, if_pos (Or.inl hs), hs]; rfl
      · cases hu : unreserved c with
        | true =>
            rw [if_neg hs, if_pos rfl, if_pos (Or.inr rfl)]
            rfl
        | false =>
            rw [if_neg hs, if_neg Bool.false_ne_true, if_neg]
            · rfl
            · intro hcase
              rcases hcase with h | h
              · exact hs h
              · exact Bool.false_ne_true h
  | esc h l => rfl

/-- A signed token is complete, and stands for the byte that the token stands for. -/
theorem signedToken_spec {t : Token} (h : t.Hex) :
    ((signedToken t).Hex ∧ (signedToken t).wf = true) ∧ (signedToken t).value = t.value := by
  cases t with
  | lit c =>
      rw [signedToken_lit]
      by_cases hc : c = slash ∨ unreserved c = true
      · rw [if_pos hc]
        refine ⟨⟨trivial, ?_⟩, rfl⟩
        have hne : c ≠ percent := by
          rcases hc with rfl | hc
          · decide
          · exact unreserved_ne_percent c hc
        simpa [Token.wf] using hne
      · rw [if_neg hc]
        exact ⟨⟨⟨isAsciiHexdigit_hexDigit _ (shift_lt c), isAsciiHexdigit_hexDigit _ (mask_lt c)⟩,
          rfl⟩, hexVal_hexDigit_byte c⟩
  | esc a b =>
      obtain ⟨ha, hb⟩ := h
      refine ⟨⟨⟨upper_hex a ha, upper_hex b hb⟩, rfl⟩, ?_⟩
      simp only [signedToken, Token.value, hexVal_toAsciiUppercase a ha,
        hexVal_toAsciiUppercase b hb]

/-- **The canonical path reads as the signed tokens.** -/
theorem scan_canonicalPath (p : Bytes) : scan (canonicalPath p) = (scan p).map signedToken := by
  have hraw : canonicalPath p = unscan ((scan p).map signedToken) := by
    unfold canonicalPath unscan
    rw [List.flatMap_map]
    exact List.flatMap_congr fun t _ => canonicalToken_eq t
  rw [hraw]
  refine scan_unscan fun t ht => ?_
  obtain ⟨u, hu, rfl⟩ := List.mem_map.mp ht
  exact (signedToken_spec (scan_hex p u hu)).1

/-- The canonical path is canonical text. -/
theorem canonicalText_canonicalPath (p : Bytes) : CanonicalText (canonicalPath p) := by
  have hdigit : ∀ n : UInt8, n < 16 → isAsciiLowercase (hexDigit n) = false :=
    forall_lt_sixteen (by decide)
  have hupper : ∀ c : UInt8, isAsciiHexdigit c = true →
      isAsciiLowercase (toAsciiUppercase c) = false := by
    intro c hc
    rw [← hexDigit_hexVal c hc]
    exact hdigit _ (hexVal_lt c hc)
  have hall : ∀ ts : List Token, (∀ t ∈ ts, t.Hex) → CanonicalText (ts.flatMap canonicalToken) := by
    intro ts
    induction ts with
    | nil => intro _; exact .nil
    | cons t ts ih =>
        intro hts
        have hrest := ih fun u hu => hts u (List.mem_cons_of_mem _ hu)
        have ht := hts t List.mem_cons_self
        rw [List.flatMap_cons]
        cases t with
        | lit c =>
            rw [canonicalToken_lit]
            by_cases hs : c = slash
            · rw [if_pos hs]
              exact .slash hrest
            · rw [if_neg hs]
              unfold encodeByte
              cases hu : unreserved c with
              | true => exact .unreserved hu hrest
              | false =>
                  exact .escape (isAsciiHexdigit_hexDigit _ (shift_lt c)) (hdigit _ (shift_lt c))
                    (isAsciiHexdigit_hexDigit _ (mask_lt c)) (hdigit _ (mask_lt c)) hrest
        | esc a b =>
            exact .escape (upper_hex a ht.1) (hupper a ht.1) (upper_hex b ht.2) (hupper b ht.2)
              hrest
  exact hall (scan p) (scan_hex p)

/-- The canonical path holds `/` and encoded text only. -/
theorem canonicalToken_bytes {t : Token} (ht : t.Hex) :
    ∀ c ∈ canonicalToken t, encodedByte c = true ∨ c = slash := by
  have hup : ∀ c : UInt8, isAsciiHexdigit c = true → encodedByte (toAsciiUppercase c) = true := by
    intro c hc
    rw [← hexDigit_hexVal c hc]
    exact encodedByte_hexDigit _ (hexVal_lt c hc)
  intro c hc
  cases t with
  | lit b =>
      rw [canonicalToken_lit] at hc
      split at hc
      · exact Or.inr (List.mem_singleton.mp hc)
      · refine Or.inl (encodedByte_of_mem (v := [b]) c ?_)
        rw [encode_cons, encode_nil, List.append_nil]
        exact hc
  | esc h l =>
      simp only [canonicalToken_esc, List.mem_cons, List.not_mem_nil, or_false] at hc
      rcases hc with rfl | rfl | rfl
      · exact Or.inl rfl
      · exact Or.inl (hup h ht.1)
      · exact Or.inl (hup l ht.2)

/-- No line break is signed with the path. -/
theorem lf_not_mem_canonicalPath (p : Bytes) : lf ∉ canonicalPath p := by
  intro hm
  obtain ⟨t, ht, hc⟩ := List.mem_flatMap.mp hm
  rcases canonicalToken_bytes (scan_hex p t ht) lf hc with h | h
  · exact absurd h (by decide)
  · exact absurd h (by decide)

end SigV4.Spec
