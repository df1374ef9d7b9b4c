import SigV4.Lib.Bytes

/-!
# Percent encoding

A byte string reads, left to right, as a list of tokens: an escape `%XX`, or a
byte that stands for itself. A `%` that is not followed by two hex digits is a
literal token too, so every string has exactly one reading and `unscan` undoes
`scan`. Decoding, re-encoding and validating are then folds over tokens, and
`scanLoop_eq` turns each index loop that steps by one or by three into that fold.

The encoding is RFC 3986's: unreserved bytes stand for themselves, every other
byte is written as an escape with upper-case digits.
-/

namespace SigV4.Percent

open Outcome Ascii

variable {ε ρ τ : Type}

/-! ## Hex digits -/

/-- The value of a hex digit. -/
def hexVal (c : UInt8) : UInt8 :=
  if isAsciiDigit c then c - 0x30 else if 0x61 ≤ c && c ≤ 0x66 then c - 0x61 + 10 else c - 0x41 + 10

/-- The upper-case digit of a value below sixteen. -/
def hexDigit (n : UInt8) : UInt8 := if n < 10 then 0x30 + n else 0x41 + (n - 10)

/-- What holds of sixteen bytes is gone through. -/
theorem forall_lt_sixteen {P : UInt8 → Prop} (h : ∀ n : Fin 16, P (UInt8.ofNat n)) :
    ∀ n, n < 16 → P n := by
  intro n hn
  have hP := h ⟨n.toNat, UInt8.lt_iff_toNat_lt.mp hn⟩
  rw [UInt8.ofNat_toNat] at hP
  exact hP

theorem isAsciiHexdigit_hexDigit : ∀ n : UInt8, n < 16 → isAsciiHexdigit (hexDigit n) = true :=
  forall_lt_sixteen (by decide)

theorem shift_lt (c : UInt8) : c >>> 4 < 16 := by
  have hlt := c.toNat_lt
  rw [UInt8.lt_iff_toNat_lt, UInt8.toNat_shiftRight]
  show c.toNat >>> 4 < 16
  rw [Nat.shiftRight_eq_div_pow]
  omega

theorem mask_lt (c : UInt8) : c &&& 0x0F < 16 := by
  rw [UInt8.lt_iff_toNat_lt, UInt8.toNat_and]
  exact Nat.and_lt_two_pow (n := 4) c.toNat (by decide)

theorem hexVal_hexDigit_byte : ∀ c : UInt8,
    hexVal (hexDigit (c >>> 4)) <<< 4 ||| hexVal (hexDigit (c &&& 0x0F)) = c := by
  decide +kernel

/-- The digits are gone through once. -/
theorem hexVal_spec : ∀ c : UInt8, isAsciiHexdigit c = true →
    hexVal c < 16 ∧ hexDigit (hexVal c) = toAsciiUppercase c
      ∧ hexVal (toAsciiUppercase c) = hexVal c := by
  decide +kernel

theorem hexVal_lt (c : UInt8) (h : isAsciiHexdigit c = true) : hexVal c < 16 :=
  (hexVal_spec c h).1

theorem hexDigit_hexVal (c : UInt8) (h : isAsciiHexdigit c = true) :
    hexDigit (hexVal c) = toAsciiUppercase c :=
  (hexVal_spec c h).2.1

theorem hexVal_toAsciiUppercase (c : UInt8) (h : isAsciiHexdigit c = true) :
    hexVal (toAsciiUppercase c) = hexVal c :=
  (hexVal_spec c h).2.2

/-! ## Tokens -/

/-- A byte that stands for itself, or an escape with its two digits. -/
inductive Token where
  | lit (c : UInt8)
  | esc (h l : UInt8)
  deriving DecidableEq, Repr

namespace Token

/-- The bytes a token is written with. -/
def raw : Token → Bytes
  | lit c => [c]
  | esc h l => [percent, h, l]

/-- The byte a token stands for. -/
def value : Token → UInt8
  | lit c => c
  | esc h l => hexVal h <<< 4 ||| hexVal l

/-- A literal `%` is a malformed escape. -/
def wf : Token → Bool
  | lit c => c != percent
  | esc _ _ => true

/-- The digits of an escape are hex digits. -/
def Hex : Token → Prop
  | lit _ => True
  | esc h l => isAsciiHexdigit h = true ∧ isAsciiHexdigit l = true

end Token

/-- The string starts with two hex digits. -/
def hexPair : Bytes → Bool
  | h :: l :: _ => isAsciiHexdigit h && isAsciiHexdigit l
  | _ => false

/-- The left-to-right reading of a byte string. -/
def scan : Bytes → List Token
  | [] => []
  | [c] => [.lit c]
  | [c, d] => [.lit c, .lit d]
  | c :: h :: l :: rest =>
    if c = percent ∧ isAsciiHexdigit h = true ∧ isAsciiHexdigit l = true then
      .esc h l :: scan rest
    else .lit c :: scan (h :: l :: rest)

/-- Write tokens back. -/
def unscan (ts : List Token) : Bytes := ts.flatMap Token.raw

@[simp] theorem scan_nil : scan [] = [] := rfl

@[simp] theorem unscan_nil : unscan [] = [] := rfl

@[simp] theorem unscan_cons (t : Token) (ts : List Token) :
    unscan (t :: ts) = t.raw ++ unscan ts := rfl

theorem scan_esc {h l : UInt8} (hh : isAsciiHexdigit h = true) (hl : isAsciiHexdigit l = true)
    (rest : Bytes) : scan (percent :: h :: l :: rest) = .esc h l :: scan rest := by
  rw [scan, if_pos ⟨rfl, hh, hl⟩]

/-- A byte that does not open an escape is read as itself. -/
theorem scan_lit {c : UInt8} {rest : Bytes} (h : c = percent → hexPair rest = false) :
    scan (c :: rest) = .lit c :: scan rest := by
  match rest with
  | [] => rfl
  | [_] => rfl
  | a :: b :: rest =>
      rw [scan, if_neg]
      intro hcase
      obtain ⟨hc, ha, hb⟩ := hcase
      have := h hc
      simp [hexPair, ha, hb] at this

theorem scan_ne {c : UInt8} (h : c ≠ percent) (rest : Bytes) :
    scan (c :: rest) = .lit c :: scan rest :=
  scan_lit fun he => absurd he h

/-- The two ways a nonempty string can start. -/
theorem scan_cases (c : UInt8) (rest : Bytes) :
    (∃ h l rest', c = percent ∧ rest = h :: l :: rest' ∧ isAsciiHexdigit h = true
        ∧ isAsciiHexdigit l = true ∧ scan (c :: rest) = .esc h l :: scan rest')
      ∨ ((c = percent → hexPair rest = false) ∧ scan (c :: rest) = .lit c :: scan rest) := by
  by_cases h : c = percent ∧ hexPair rest = true
  · obtain ⟨rfl, hp⟩ := h
    match rest, hp with
    | a :: b :: rest, hp =>
        simp only [hexPair, Bool.and_eq_true] at hp
        exact Or.inl ⟨a, b, rest, rfl, rfl, hp.1, hp.2, scan_esc hp.1 hp.2 rest⟩
  · have hlit : c = percent → hexPair rest = false := by
      intro hc
      cases hp : hexPair rest with
      | false => rfl
      | true => exact absurd ⟨hc, hp⟩ h
    exact Or.inr ⟨hlit, scan_lit hlit⟩

/-- Induction along the reading of a string. -/
theorem scan_induction {P : Bytes → Prop} (hnil : P [])
    (hesc : ∀ h l rest, isAsciiHexdigit h = true → isAsciiHexdigit l = true → P rest →
      P (percent :: h :: l :: rest))
    (hlit : ∀ c rest, (c = percent → hexPair rest = false) → P rest → P (c :: rest)) :
    ∀ v, P v
  | [] => hnil
  | c :: rest => by
      rcases scan_cases c rest with ⟨h, l, rest', rfl, rfl, hh, hl, _⟩ | ⟨hc, _⟩
      · exact hesc h l rest' hh hl (scan_induction hnil hesc hlit rest')
      · exact hlit c rest hc (scan_induction hnil hesc hlit rest)

/-- **Reading loses nothing.** -/
theorem unscan_scan (v : Bytes) : unscan (scan v) = v := by
  induction v using scan_induction with
  | hnil => rfl
  | hesc h l rest hh hl ih => rw [scan_esc hh hl, unscan_cons, ih]; rfl
  | hlit c rest hc ih => rw [scan_lit hc, unscan_cons, ih]; rfl

theorem scan_hex (v : Bytes) : ∀ t ∈ scan v, t.Hex := by
  induction v using scan_induction with
  | hnil => simp
  | hesc h l rest hh hl ih =>
      rw [scan_esc hh hl]
      intro t ht
      rcases List.mem_cons.mp ht with rfl | ht
      · exact ⟨hh, hl⟩
      · exact ih t ht
  | hlit c rest hc ih =>
      rw [scan_lit hc]
      intro t ht
      rcases List.mem_cons.mp ht with rfl | ht
      · trivial
      · exact ih t ht

/-- Every escape is complete. -/
def WellFormed (v : Bytes) : Prop := (scan v).all Token.wf = true

instance (v : Bytes) : Decidable (WellFormed v) := inferInstanceAs (Decidable (_ = true))

/-- **Writing loses nothing**, where no literal is a `%` and no escape lacks a digit. -/
theorem scan_unscan : ∀ {ts : List Token}, (∀ t ∈ ts, t.Hex ∧ t.wf = true) → scan (unscan ts) = ts
  | [], _ => rfl
  | t :: ts, h => by
      obtain ⟨hhex, hwf⟩ := h t List.mem_cons_self
      have ih := scan_unscan fun u hu => h u (List.mem_cons_of_mem _ hu)
      cases t with
      | lit c =>
          have hne : c ≠ percent := by simpa [Token.wf] using hwf
          rw [unscan_cons, Token.raw, List.singleton_append, scan_ne hne, ih]
      | esc a b =>
          rw [unscan_cons]
          show scan (percent :: a :: b :: unscan ts) = _
          rw [scan_esc hhex.1 hhex.2, ih]

theorem wellFormed_cons_ne {c : UInt8} {rest : Bytes} (h : c ≠ percent) :
    WellFormed (c :: rest) ↔ WellFormed rest := by
  unfold WellFormed
  rw [scan_ne h, List.all_cons]
  simp [Token.wf, h]

theorem wellFormed_esc {h l : UInt8} {rest : Bytes} (hh : isAsciiHexdigit h = true)
    (hl : isAsciiHexdigit l = true) :
    WellFormed (percent :: h :: l :: rest) ↔ WellFormed rest := by
  unfold WellFormed
  rw [scan_esc hh hl, List.all_cons]
  simp [Token.wf]

theorem not_wellFormed_of_hexPair {rest : Bytes} (h : hexPair rest = false) :
    ¬WellFormed (percent :: rest) := by
  unfold WellFormed
  rw [scan_lit fun _ => h, List.all_cons]
  simp [Token.wf]

/-- **Reading commutes with concatenation** after a string whose escapes are complete. -/
theorem scan_append {v : Bytes} (w : Bytes) (hv : WellFormed v) :
    scan (v ++ w) = scan v ++ scan w := by
  induction v using scan_induction with
  | hnil => rfl
  | hesc h l rest hh hl ih =>
      rw [wellFormed_esc hh hl] at hv
      rw [List.cons_append, List.cons_append, List.cons_append, scan_esc hh hl, scan_esc hh hl,
        ih hv, List.cons_append]
  | hlit c rest hc ih =>
      have hne : c ≠ percent := by
        rintro rfl
        exact not_wellFormed_of_hexPair (hc rfl) hv
      rw [wellFormed_cons_ne hne] at hv
      rw [List.cons_append, scan_ne hne, scan_ne hne, ih hv, List.cons_append]

theorem wellFormed_append {v w : Bytes} (hv : WellFormed v) :
    WellFormed (v ++ w) ↔ WellFormed w := by
  have hv' : (scan v).all Token.wf = true := hv
  unfold WellFormed
  rw [scan_append w hv, List.all_append, hv', Bool.true_and]

/-- What a left-to-right scan of `v` still has to read when it has come to a token. -/
inductive Reaches (v : Bytes) : Bytes → Prop
  | start : Reaches v v
  | lit {c : UInt8} {rest : Bytes} (h : Reaches v (c :: rest)) (hc : c ≠ percent) : Reaches v rest
  | esc {a b : UInt8} {rest : Bytes} (h : Reaches v (percent :: a :: b :: rest))
      (ha : isAsciiHexdigit a = true) (hb : isAsciiHexdigit b = true) : Reaches v rest

theorem Reaches.trans {u v w : Bytes} (huv : Reaches u v) (hvw : Reaches v w) : Reaches u w := by
  induction hvw with
  | start => exact huv
  | lit _ hc ih => exact ih.lit hc
  | esc _ ha hb ih => exact ih.esc ha hb

/-- What is left to read of a well-formed string is well formed. -/
theorem Reaches.wellFormed {v w : Bytes} (h : Reaches v w) (hv : WellFormed v) : WellFormed w := by
  induction h with
  | start => exact hv
  | lit _ hc ih => exact (wellFormed_cons_ne hc).mp ih
  | esc _ ha hb ih => exact (wellFormed_esc ha hb).mp ih

/-- **Well-formed means** that two hex digits follow every `%` the scan reaches. -/
theorem wellFormed_iff_reaches {v : Bytes} :
    WellFormed v ↔ ∀ rest, Reaches v (percent :: rest) → hexPair rest = true := by
  refine ⟨?_, ?_⟩
  · intro hv rest hreach
    cases hp : hexPair rest with
    | true => rfl
    | false => exact absurd (hreach.wellFormed hv) (not_wellFormed_of_hexPair hp)
  · intro h
    induction v using scan_induction with
    | hnil => rfl
    | hesc a b rest ha hb ih =>
        rw [wellFormed_esc ha hb]
        exact ih fun w hw => h w ((Reaches.start.esc ha hb).trans hw)
    | hlit c rest hc ih =>
        have hne : c ≠ percent := by
          rintro rfl
          have := h rest .start
          rw [hc rfl] at this
          exact absurd this Bool.false_ne_true
        rw [wellFormed_cons_ne hne]
        exact ih fun w hw => h w ((Reaches.start.lit hne).trans hw)

/-- **Well-formed means** that two hex digits follow every `%`. -/
theorem wellFormed_iff {v : Bytes} :
    WellFormed v ↔ ∀ a b, v = a ++ percent :: b → hexPair b = true := by
  induction v using scan_induction with
  | hnil =>
      refine ⟨fun _ a b h => ?_, fun _ => rfl⟩
      exact absurd h.symm (List.append_ne_nil_of_right_ne_nil a (List.cons_ne_nil _ _))
  | hesc x y rest hx hy ih =>
      rw [wellFormed_esc hx hy, ih]
      refine ⟨?_, ?_⟩
      · intro hrest a b h
        match a, h with
        | [], h =>
            obtain ⟨_, rfl⟩ := List.cons.inj h
            simp [hexPair, hx, hy]
        -- the digits of an escape are not `%`
        | [_], h =>
            obtain ⟨rfl, _⟩ := List.cons.inj (List.cons.inj h).2
            exact absurd hx (by decide)
        | [_, _], h =>
            obtain ⟨rfl, _⟩ := List.cons.inj (List.cons.inj (List.cons.inj h).2).2
            exact absurd hy (by decide)
        | _ :: _ :: _ :: a, h =>
            exact hrest a b (List.cons.inj (List.cons.inj (List.cons.inj h).2).2).2
      · intro hall a b h
        exact hall (percent :: x :: y :: a) b (by rw [h]; rfl)
  | hlit c rest hc ih =>
      by_cases hcp : c = percent
      · subst hcp
        refine ⟨fun h => absurd h (not_wellFormed_of_hexPair (hc rfl)), fun h => ?_⟩
        have := h [] rest rfl
        rw [hc rfl] at this
        exact absurd this Bool.false_ne_true
      · rw [wellFormed_cons_ne hcp, ih]
        refine ⟨?_, ?_⟩
        · intro hrest a b h
          cases a with
          | nil => exact absurd (List.cons.inj h).1 hcp
          | cons _ a => exact hrest a b (List.cons.inj h).2
        · intro hall a b h
          exact hall (c :: a) b (by rw [h]; rfl)

/-- A byte that is no digit ends what stands before it. -/
theorem WellFormed.of_append_cons {a b : Bytes} {c : UInt8} (hc : isAsciiHexdigit c = false)
    (h : WellFormed (a ++ c :: b)) : WellFormed a := by
  have hall := wellFormed_iff.mp h
  refine wellFormed_iff.mpr fun x y hxy => ?_
  have hy := hall x (y ++ c :: b) (by rw [hxy, List.append_assoc]; rfl)
  match y, hy with
  | [], hy =>
      have hno : hexPair (c :: b) = false := by
        cases b with
        | nil => rfl
        | cons d b => simp [hexPair, hc]
      exact absurd (hno.symm.trans hy) Bool.false_ne_true
  | [_], hy =>
      simp only [List.singleton_append, hexPair, Bool.and_eq_true] at hy
      exact absurd (hc.symm.trans hy.2) Bool.false_ne_true
  | _ :: _ :: _, hy => exact hy

/-- A `%` ends what stands before it, and opens an escape. -/
theorem WellFormed.of_append_percent {a b : Bytes} (h : WellFormed (a ++ percent :: b)) :
    WellFormed a ∧ hexPair b = true :=
  ⟨h.of_append_cons rfl, wellFormed_iff.mp h a b rfl⟩

/-- **The escapes of a string** are the places where it holds a `%`. -/
theorem esc_mem_scan_iff {v : Bytes} (hv : WellFormed v) {h l : UInt8} :
    Token.esc h l ∈ scan v ↔ ∃ a b, v = a ++ percent :: h :: l :: b := by
  refine ⟨?_, ?_⟩
  · intro hmem
    obtain ⟨ts, us, hscan⟩ := List.append_of_mem hmem
    refine ⟨unscan ts, unscan us, ?_⟩
    rw [← unscan_scan v, hscan]
    simp [unscan, Token.raw]
  · intro hcase
    obtain ⟨a, b, rfl⟩ := hcase
    obtain ⟨ha, hpair⟩ := hv.of_append_percent
    simp only [hexPair, Bool.and_eq_true] at hpair
    rw [scan_append _ ha, scan_esc hpair.1 hpair.2]
    simp

/-- A literal is a byte of the string. -/
theorem mem_of_lit_mem_scan {v : Bytes} {c : UInt8} (h : Token.lit c ∈ scan v) : c ∈ v := by
  rw [← unscan_scan v]
  exact List.mem_flatMap.mpr ⟨.lit c, h, List.mem_singleton.mpr rfl⟩

/-! ## Decoding -/

/-- Percent-decoding; `none` when an escape is malformed. -/
def decode (v : Bytes) : Option Bytes :=
  if WellFormed v then some ((scan v).map Token.value) else none

theorem decode_eq_some {v d : Bytes} :
    decode v = some d ↔ WellFormed v ∧ (scan v).map Token.value = d := by
  unfold decode
  split <;> simp_all

theorem decode_isSome {v : Bytes} : (decode v).isSome = true ↔ WellFormed v := by
  unfold decode
  split <;> simp_all

@[simp] theorem decode_nil : decode [] = some [] := rfl

/-- **Decoding commutes with concatenation.** -/
theorem decode_append {v w d : Bytes} (hv : decode v = some d) :
    decode (v ++ w) = (decode w).map (d ++ ·) := by
  obtain ⟨hwf, rfl⟩ := decode_eq_some.mp hv
  unfold decode
  by_cases hw : WellFormed w
  · rw [if_pos ((wellFormed_append hwf).mpr hw), if_pos hw, scan_append w hwf, List.map_append]
    rfl
  · rw [if_neg (fun h => hw ((wellFormed_append hwf).mp h)), if_neg hw]
    rfl

theorem decode_cons_ne {c : UInt8} {v : Bytes} (h : c ≠ percent) :
    decode (c :: v) = (decode v).map (c :: ·) := by
  unfold decode
  by_cases hv : WellFormed v
  · rw [if_pos ((wellFormed_cons_ne h).mpr hv), if_pos hv, scan_ne h]; rfl
  · rw [if_neg (fun hc => hv ((wellFormed_cons_ne h).mp hc)), if_neg hv]; rfl

theorem decode_esc {a b : UInt8} (ha : isAsciiHexdigit a = true) (hb : isAsciiHexdigit b = true)
    (v : Bytes) :
    decode (percent :: a :: b :: v) = (decode v).map (Token.value (.esc a b) :: ·) := by
  unfold decode
  by_cases hv : WellFormed v
  · rw [if_pos ((wellFormed_esc ha hb).mpr hv), if_pos hv, scan_esc ha hb]; rfl
  · rw [if_neg (fun hc => hv ((wellFormed_esc ha hb).mp hc)), if_neg hv]; rfl

/-- A string without `%` decodes to itself. -/
theorem decode_of_not_mem {v : Bytes} (h : percent ∉ v) : decode v = some v := by
  induction v with
  | nil => rfl
  | cons c v ih =>
      simp only [List.mem_cons, not_or] at h
      rw [decode_cons_ne (Ne.symm h.1), ih h.2]; rfl

/-! ## Decoding and splitting -/

/-- A change to the first field is a change to its decoding. -/
theorem map_decode_modifyHead {f g : Bytes → Bytes}
    (h : ∀ {s e}, decode s = some e → decode (f s) = some (g e)) {l r : List Bytes}
    (hl : l.map decode = r.map some) :
    (l.modifyHead f).map decode = (r.modifyHead g).map some := by
  cases l with
  | nil =>
      obtain rfl := List.map_eq_nil_iff.mp hl.symm
      rfl
  | cons s l =>
      obtain ⟨e, es, rfl, he, hes⟩ := List.map_eq_cons_iff.mp hl.symm
      rw [List.modifyHead_cons, List.modifyHead_cons, List.map_cons, List.map_cons, h he.symm, hes]

/--
**Decoding commutes with splitting** where no escape stands for a separator. Separators are
neither `%` nor digits, so an escape is never cut in two.
-/
theorem splitOnP_decode {p : UInt8 → Bool} (hpercent : p percent = false)
    (hdigit : ∀ c, isAsciiHexdigit c = true → p c = false) {v d : Bytes} (h : decode v = some d)
    (hplain : ∀ t ∈ scan v, p t.value = true → t = .lit t.value) :
    (v.splitOnP p).map decode = (d.splitOnP p).map some := by
  induction v using scan_induction generalizing d with
  | hnil =>
      obtain rfl := Option.some.inj h
      rfl
  | hesc a b rest ha hb ih =>
      have hdec : ∀ s, decode (percent :: a :: b :: s)
          = (decode s).map (Token.value (.esc a b) :: ·) := fun s => decode_esc ha hb s
      rw [hdec, Option.map_eq_some_iff] at h
      obtain ⟨d, hd, rfl⟩ := h
      rw [scan_esc ha hb] at hplain
      have hvalue : p (Token.value (.esc a b)) = false := by
        cases hp : p (Token.value (.esc a b)) with
        | false => rfl
        | true => exact absurd (hplain _ List.mem_cons_self hp) (by simp)
      have hrest := ih hd fun t ht => hplain t (List.mem_cons_of_mem _ ht)
      rw [List.splitOnP_cons_eq_if_modifyHead, List.splitOnP_cons_eq_if_modifyHead,
        List.splitOnP_cons_eq_if_modifyHead, List.splitOnP_cons_eq_if_modifyHead, hpercent,
        hdigit a ha, hdigit b hb, hvalue]
      simp only [Bool.false_eq_true, if_false, List.modifyHead_modifyHead]
      refine map_decode_modifyHead ?_ hrest
      intro s e he
      exact (hdec s).trans (by rw [he]; rfl)
  | hlit c rest hc ih =>
      have hne : c ≠ percent := by
        rintro rfl
        exact not_wellFormed_of_hexPair (hc rfl) (decode_eq_some.mp h).1
      rw [decode_cons_ne hne, Option.map_eq_some_iff] at h
      obtain ⟨d, hd, rfl⟩ := h
      rw [scan_ne hne] at hplain
      have hrest := ih hd fun t ht => hplain t (List.mem_cons_of_mem _ ht)
      rw [List.splitOnP_cons_eq_if_modifyHead, List.splitOnP_cons_eq_if_modifyHead]
      cases p c with
      | true =>
          rw [if_pos rfl, if_pos rfl, List.map_cons, List.map_cons, decode_nil, hrest]
      | false =>
          rw [if_neg Bool.false_ne_true, if_neg Bool.false_ne_true]
          refine map_decode_modifyHead ?_ hrest
          intro s e he
          rw [decode_cons_ne hne, he]
          rfl

/-- The same for one separator, where only its literal stands for it. -/
theorem splitOn_decode {v d : Bytes} {sep : UInt8} (hhex : isAsciiHexdigit sep = false)
    (hne : sep ≠ percent) (hd : decode v = some d)
    (hlit : ∀ t ∈ scan v, t.value = sep → t = .lit sep) :
    (v.splitOn sep).map decode = (d.splitOn sep).map some := by
  have hdigit : ∀ c, isAsciiHexdigit c = true → (c == sep) = false :=
    fun c hc => beq_eq_false_iff_ne.mpr (hexdigit_ne hc hhex)
  refine splitOnP_decode (p := (· == sep)) (beq_eq_false_iff_ne.mpr hne.symm) hdigit hd ?_
  intro t ht hv
  have hvalue : t.value = sep := eq_of_beq hv
  rw [hvalue]
  exact hlit t ht hvalue

/-! ## Encoding -/

/-- RFC 3986's unreserved bytes. -/
def unreserved (c : UInt8) : Bool :=
  isAsciiAlphanumeric c || c == hyphen || c == dot || c == underscore || c == tilde

/-- `%XX` with upper-case digits. -/
def escape (c : UInt8) : Bytes := [percent, hexDigit (c >>> 4), hexDigit (c &&& 0x0F)]

/-- One byte, encoded. -/
def encodeByte (c : UInt8) : Bytes := if unreserved c then [c] else escape c

/-- The encoding of a byte string. -/
def encode (v : Bytes) : Bytes := v.flatMap encodeByte

@[simp] theorem encode_nil : encode [] = [] := rfl

@[simp] theorem encode_cons (c : UInt8) (v : Bytes) :
    encode (c :: v) = encodeByte c ++ encode v := rfl

theorem encode_append (v w : Bytes) : encode (v ++ w) = encode v ++ encode w := by
  unfold encode; rw [List.flatMap_append]

theorem unreserved_ne_percent (c : UInt8) (h : unreserved c = true) : c ≠ percent := by
  intro hc
  rw [hc] at h
  exact absurd h (by decide)

theorem decode_escape_append (c : UInt8) (rest : Bytes) :
    decode (escape c ++ rest) = (decode rest).map (c :: ·) := by
  have hdec := decode_esc (isAsciiHexdigit_hexDigit _ (shift_lt c))
    (isAsciiHexdigit_hexDigit _ (mask_lt c)) rest
  have hvalue : Token.value (.esc (hexDigit (c >>> 4)) (hexDigit (c &&& 0x0F))) = c :=
    hexVal_hexDigit_byte c
  rw [hvalue] at hdec
  exact hdec

theorem decode_encodeByte_append (c : UInt8) (rest : Bytes) :
    decode (encodeByte c ++ rest) = (decode rest).map (c :: ·) := by
  unfold encodeByte
  split
  · rename_i h
    exact decode_cons_ne (unreserved_ne_percent c h)
  · exact decode_escape_append c rest

/-- **Decoding undoes encoding.** -/
theorem decode_encode (v : Bytes) : decode (encode v) = some v := by
  induction v with
  | nil => rfl
  | cons c v ih => rw [encode_cons, decode_encodeByte_append, ih]; rfl

/-- Encoded text holds unreserved bytes, `%` and upper-case hex digits only. -/
def encodedByte (c : UInt8) : Bool := unreserved c || c == percent

theorem encodedByte_hexDigit : ∀ n : UInt8, n < 16 → encodedByte (hexDigit n) = true :=
  forall_lt_sixteen (by decide)

theorem encodedByte_of_mem {v : Bytes} : ∀ c ∈ encode v, encodedByte c = true := by
  intro c hc
  obtain ⟨b, _, hb⟩ := List.mem_flatMap.mp hc
  unfold encodeByte at hb
  split at hb
  · rename_i hu
    rw [List.mem_singleton.mp hb]
    simp [encodedByte, hu]
  · simp only [escape, List.mem_cons, List.not_mem_nil, or_false] at hb
    rcases hb with rfl | rfl | rfl
    · rfl
    · exact encodedByte_hexDigit _ (shift_lt b)
    · exact encodedByte_hexDigit _ (mask_lt b)

/-- A byte that encoding never writes. -/
theorem not_mem_encode {c : UInt8} (h : encodedByte c = false) (v : Bytes) : c ∉ encode v := by
  intro hc
  have := encodedByte_of_mem c hc
  rw [h] at this
  exact Bool.noConfusion this

/-! ## Loops over a reading -/

/--
**The rule for loops over a reading.**

The state is an index and an accumulator. If the body folds `g` over the token
at its index and moves past it, the loop folds `g` over `scan`.
-/
theorem scanLoop_eq {v : Bytes} {B : Nat × τ → Outcome ε (Pass (Nat × τ) ρ)}
    {g : τ → Token → Outcome ε τ} {f : τ → ρ}
    (hesc : ∀ i t h l rest, v.drop i = percent :: h :: l :: rest → isAsciiHexdigit h = true →
      isAsciiHexdigit l = true →
      B (i, t) = (do let t' ← g t (.esc h l); ok (.again (i + 3, t'))))
    (hlit : ∀ i t c rest, v.drop i = c :: rest → (c = percent → hexPair rest = false) →
      B (i, t) = (do let t' ← g t (.lit c); ok (.again (i + 1, t'))))
    (hdone : ∀ i t, v.length ≤ i → B (i, t) = ok (.leave (f t))) :
    ∀ (fuel i : Nat) (t : τ), v.length - i < fuel →
      loop B fuel (i, t) = f <$> (scan (v.drop i)).foldlM g t
  | 0, _, _, h => absurd h (Nat.not_lt_zero _)
  | fuel + 1, i, t, hlt => by
      rw [loop]
      rcases Nat.lt_or_ge i v.length with hi | hi
      · obtain ⟨c, _, hd⟩ := drop_cons_of_lt hi
        rw [hd]
        rcases scan_cases c (v.drop (i + 1)) with ⟨h, l, rest, rfl, hr, hh, hl, hs⟩ | ⟨hc, hs⟩
        · have hd3 : v.drop (i + 3) = rest := by
            have := congrArg (List.drop 2) hr
            rw [List.drop_drop] at this
            exact this
          rw [hesc i t h l rest (by rw [hd, hr]) hh hl, hs, List.foldlM_cons]
          cases g t (.esc h l) with
          | ok t' =>
              simp only [ok_bind]
              rw [scanLoop_eq hesc hlit hdone fuel (i + 3) t' (by omega), hd3]
          | exit e => rfl
          | panic p => rfl
        · rw [hlit i t c _ hd hc, hs, List.foldlM_cons]
          cases g t (.lit c) with
          | ok t' =>
              simp only [ok_bind]
              exact scanLoop_eq hesc hlit hdone fuel (i + 1) t' (by omega)
          | exit e => rfl
          | panic p => rfl
      · rw [hdone i t hi, List.drop_eq_nil_of_le hi]; rfl

end SigV4.Percent
