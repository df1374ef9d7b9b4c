import SigV4.Lib.Bytes
import Mathlib.Data.List.DropRight

/-!
# UTF-8 text

A Rust `str` is a byte string that is valid UTF-8, and `Str` is that pair: its
bytes, and the proof that they decode. Byte-level operations (ASCII case, split at
an ASCII byte, a slice at a byte offset) then owe a proof that the result is valid
again, and a slice off a character boundary is a panic.

`decode` is checked against Lean's own encoder: `decode_eq_some_iff` says it
accepts exactly the concatenations of `String.utf8EncodeChar`.
-/

namespace SigV4

namespace Utf8

/-- A continuation byte. -/
def continuation (b : UInt8) : Bool := 0x80 ≤ b && b ≤ 0xBF

/-- A Unicode scalar value. -/
def scalar (n : Nat) : Bool := n < 0xD800 || (0xDFFF < n && n < 0x110000)

/-- The first character of a byte string and the bytes after it; `none` where no
character starts here. -/
def next : Bytes → Option (Char × Bytes)
  | [] => none
  | a :: rest =>
    if a.toNat < 0x80 then some (Char.ofNat a.toNat, rest)
    else if a.toNat < 0xC2 then none
    else if a.toNat < 0xE0 then
      match rest with
      | b :: rest =>
        if continuation b then
          some (Char.ofNat ((a.toNat - 0xC0) * 64 + (b.toNat - 0x80)), rest)
        else none
      | _ => none
    else if a.toNat < 0xF0 then
      match rest with
      | b :: c :: rest =>
        let n := (a.toNat - 0xE0) * 4096 + (b.toNat - 0x80) * 64 + (c.toNat - 0x80)
        if continuation b && continuation c && 0x800 ≤ n && scalar n then
          some (Char.ofNat n, rest)
        else none
      | _ => none
    else if a.toNat < 0xF5 then
      match rest with
      | b :: c :: d :: rest =>
        let n := (a.toNat - 0xF0) * 262144 + (b.toNat - 0x80) * 4096 + (c.toNat - 0x80) * 64
          + (d.toNat - 0x80)
        if continuation b && continuation c && continuation d && 0x10000 ≤ n && scalar n then
          some (Char.ofNat n, rest)
        else none
      | _ => none
    else none

/-- Decode at most `fuel` characters. -/
def decodeFuel : Nat → Bytes → Option (List Char)
  | _, [] => some []
  | 0, _ :: _ => none
  | fuel + 1, a :: rest =>
    match next (a :: rest) with
    | some (c, rest') => (decodeFuel fuel rest').map (c :: ·)
    | none => none

/-- The characters of a byte string; `none` where it is not UTF-8. -/
def decode (v : Bytes) : Option (List Char) := decodeFuel v.length v

/-- The bytes of a list of characters. -/
def encode (cs : List Char) : Bytes := cs.flatMap String.utf8EncodeChar

@[simp] theorem encode_nil : encode [] = [] := rfl

@[simp] theorem encode_cons (c : Char) (cs : List Char) :
    encode (c :: cs) = String.utf8EncodeChar c ++ encode cs := rfl

theorem encode_append (cs ds : List Char) : encode (cs ++ ds) = encode cs ++ encode ds := by
  unfold encode; rw [List.flatMap_append]

/-! ## One character -/

theorem continuation_iff {b : UInt8} :
    continuation b = true ↔ 0x80 ≤ b.toNat ∧ b.toNat ≤ 0xBF := by
  simp [continuation, UInt8.le_iff_toNat_le]

theorem scalar_iff {n : Nat} : scalar n = true ↔ n.isValidChar := by
  simp [scalar, Nat.isValidChar]

theorem val_ofNat {n : Nat} (h : n.isValidChar) : (Char.ofNat n).val.toNat = n := by
  unfold Char.ofNat
  rw [dif_pos h]
  rfl

theorem char_scalar (c : Char) : c.val.toNat.isValidChar := c.valid

theorem ofNat_val (c : Char) : Char.ofNat c.val.toNat = c := Char.ofNat_toNat c

theorem byte_eq {b : UInt8} {n : Nat} (hn : n < 256) (h : n = b.toNat) : UInt8.ofNat n = b := by
  subst h; exact UInt8.ofNat_toNat

/-- **A character read is a character written.** -/
theorem next_sound {v rest : Bytes} {ch : Char} (h : next v = some (ch, rest)) :
    v = String.utf8EncodeChar ch ++ rest := by
  cases v with
  | nil => exact absurd h (by simp [next])
  | cons a tail =>
      have ha := a.toNat_lt
      rw [next.eq_def] at h
      dsimp only at h
      split at h
      · -- one byte
        rename_i h1
        obtain ⟨rfl, rfl⟩ := Prod.mk.inj (Option.some.inj h)
        have hv := val_ofNat (n := a.toNat) (by unfold Nat.isValidChar; omega)
        simp only [String.utf8EncodeChar, hv]
        rw [if_pos (by omega), byte_eq (by omega) rfl]; rfl
      · split at h
        · exact absurd h (by simp)
        · split at h
          · -- two bytes
            rename_i h1 h2 h3
            split at h
            · rename_i b rest'
              split at h
              · rename_i hb
                have hb' := continuation_iff.mp hb
                obtain ⟨rfl, rfl⟩ := Prod.mk.inj (Option.some.inj h)
                have hv := val_ofNat (n := (a.toNat - 0xC0) * 64 + (b.toNat - 0x80))
                  (by unfold Nat.isValidChar; omega)
                simp only [String.utf8EncodeChar, hv]
                rw [if_neg (by omega), if_pos (by omega), byte_eq (b := a) (by omega) (by omega),
                  byte_eq (b := b) (by omega) (by omega)]
                rfl
              · exact absurd h (by simp)
            · exact absurd h (by simp)
          · split at h
            · -- three bytes
              rename_i h1 h2 h3 h4
              split at h
              · rename_i b c rest'
                split at h
                · rename_i hb
                  simp only [Bool.and_eq_true, decide_eq_true_eq, continuation_iff,
                    scalar_iff] at hb
                  obtain ⟨⟨⟨hb', hc'⟩, hlo⟩, hsc⟩ := hb
                  obtain ⟨rfl, rfl⟩ := Prod.mk.inj (Option.some.inj h)
                  have hv := val_ofNat hsc
                  simp only [String.utf8EncodeChar, hv]
                  rw [if_neg (by omega), if_neg (by omega), if_pos (by omega),
                    byte_eq (b := a) (by omega) (by omega), byte_eq (b := b) (by omega) (by omega),
                    byte_eq (b := c) (by omega) (by omega)]
                  rfl
                · exact absurd h (by simp)
              · exact absurd h (by simp)
            · split at h
              · -- four bytes
                rename_i h1 h2 h3 h4 h5
                split at h
                · rename_i b c d rest'
                  split at h
                  · rename_i hb
                    simp only [Bool.and_eq_true, decide_eq_true_eq, continuation_iff,
                      scalar_iff] at hb
                    obtain ⟨⟨⟨⟨hb', hc'⟩, hd'⟩, hlo⟩, hsc⟩ := hb
                    obtain ⟨rfl, rfl⟩ := Prod.mk.inj (Option.some.inj h)
                    have hv := val_ofNat hsc
                    have hlim := hsc
                    unfold Nat.isValidChar at hlim
                    simp only [String.utf8EncodeChar, hv]
                    rw [if_neg (by omega), if_neg (by omega), if_neg (by omega),
                      byte_eq (b := a) (by omega) (by omega),
                      byte_eq (b := b) (by omega) (by omega),
                      byte_eq (b := c) (by omega) (by omega),
                      byte_eq (b := d) (by omega) (by omega)]
                    rfl
                  · exact absurd h (by simp)
                · exact absurd h (by simp)
              · exact absurd h (by simp)

/-- **A character written is the character read**, whatever follows it. -/
theorem next_encodeChar (ch : Char) (rest : Bytes) :
    next (String.utf8EncodeChar ch ++ rest) = some (ch, rest) := by
  have hc := char_scalar ch
  have hback := ofNat_val ch
  generalize hn : ch.val.toNat = n at hc hback
  have hlt : n < 0x110000 := by unfold Nat.isValidChar at hc; omega
  have hsc : scalar n = true := scalar_iff.mpr hc
  have hof : ∀ m, m < 256 → (UInt8.ofNat m).toNat = m := fun m hm => by
    simp [Nat.mod_eq_of_lt hm]
  simp only [String.utf8EncodeChar, hn]
  split
  · -- one byte
    have e1 := hof n (by omega)
    simp only [List.cons_append, List.nil_append, next, e1]
    rw [if_pos (by omega), hback]
  · split
    · -- two bytes
      have e1 := hof (n / 64 % 32 + 192) (by omega)
      have e2 := hof (n % 64 + 128) (by omega)
      have hco : continuation (UInt8.ofNat (n % 64 + 128)) = true := by
        rw [continuation_iff, e2]; omega
      have hval : (n / 64 % 32 + 192 - 0xC0) * 64 + (n % 64 + 128 - 0x80) = n := by omega
      simp only [List.cons_append, List.nil_append, next, e1, e2, hco, hval]
      rw [if_neg (by omega), if_neg (by omega), if_pos (by omega), if_pos trivial, hback]
    · split
      · -- three bytes
        have e1 := hof (n / 4096 % 16 + 224) (by omega)
        have e2 := hof (n / 64 % 64 + 128) (by omega)
        have e3 := hof (n % 64 + 128) (by omega)
        have hc2 : continuation (UInt8.ofNat (n / 64 % 64 + 128)) = true := by
          rw [continuation_iff, e2]; omega
        have hc3 : continuation (UInt8.ofNat (n % 64 + 128)) = true := by
          rw [continuation_iff, e3]; omega
        have hval : (n / 4096 % 16 + 224 - 0xE0) * 4096 + (n / 64 % 64 + 128 - 0x80) * 64
            + (n % 64 + 128 - 0x80) = n := by omega
        simp only [List.cons_append, List.nil_append, next, e1, e2, e3, hc2, hc3, hval, hsc]
        rw [if_neg (by omega), if_neg (by omega), if_neg (by omega), if_pos (by omega),
          if_pos (by simp; omega), hback]
      · -- four bytes
        have e1 := hof (n / 262144 % 8 + 240) (by omega)
        have e2 := hof (n / 4096 % 64 + 128) (by omega)
        have e3 := hof (n / 64 % 64 + 128) (by omega)
        have e4 := hof (n % 64 + 128) (by omega)
        have hc2 : continuation (UInt8.ofNat (n / 4096 % 64 + 128)) = true := by
          rw [continuation_iff, e2]; omega
        have hc3 : continuation (UInt8.ofNat (n / 64 % 64 + 128)) = true := by
          rw [continuation_iff, e3]; omega
        have hc4 : continuation (UInt8.ofNat (n % 64 + 128)) = true := by
          rw [continuation_iff, e4]; omega
        have hval : (n / 262144 % 8 + 240 - 0xF0) * 262144 + (n / 4096 % 64 + 128 - 0x80) * 4096
            + (n / 64 % 64 + 128 - 0x80) * 64 + (n % 64 + 128 - 0x80) = n := by omega
        simp only [List.cons_append, List.nil_append, next, e1, e2, e3, e4, hc2, hc3, hc4, hval,
          hsc]
        rw [if_neg (by omega), if_neg (by omega), if_neg (by omega), if_neg (by omega),
          if_pos (by omega), if_pos (by simp; omega), hback]

theorem utf8EncodeChar_ne_nil (c : Char) : String.utf8EncodeChar c ≠ [] := by
  intro h
  have := next_encodeChar c []
  rw [h] at this
  exact absurd this (by simp [next])

/-! ## Whole strings -/

theorem encode_of_decodeFuel : ∀ (fuel : Nat) {v : Bytes} {cs : List Char},
    decodeFuel fuel v = some cs → encode cs = v
  | _, [], cs, h => by
      simp only [decodeFuel, Option.some.injEq] at h
      subst h; rfl
  | 0, _ :: _, _, h => absurd h (by simp [decodeFuel])
  | fuel + 1, a :: rest, cs, h => by
      rw [decodeFuel] at h
      split at h
      · rename_i c rest' hn
        obtain ⟨ds, hd, rfl⟩ := Option.map_eq_some_iff.mp h
        rw [encode_cons, encode_of_decodeFuel fuel hd, next_sound hn]
      · exact absurd h (by simp)

theorem decodeFuel_encode : ∀ (fuel : Nat) (cs : List Char), (encode cs).length ≤ fuel →
    decodeFuel fuel (encode cs) = some cs
  | fuel, [], _ => by cases fuel <;> rfl
  | fuel, c :: cs, hle => by
      obtain ⟨a, tl, he⟩ := List.exists_cons_of_ne_nil (utf8EncodeChar_ne_nil c)
      rw [encode_cons, List.length_append, he, List.length_cons] at hle
      cases fuel with
      | zero => omega
      | succ fuel =>
          have hn := next_encodeChar c (encode cs)
          rw [he, List.cons_append] at hn
          rw [encode_cons, he, List.cons_append, decodeFuel, hn]
          have := decodeFuel_encode fuel cs (by omega)
          simp only [this, Option.map_some]

/-- **The decoder accepts exactly the encodings.** -/
theorem decode_eq_some_iff {v : Bytes} {cs : List Char} : decode v = some cs ↔ encode cs = v :=
  ⟨encode_of_decodeFuel _, fun h => h ▸ decodeFuel_encode _ cs (Nat.le_refl _)⟩

theorem decode_encode (cs : List Char) : decode (encode cs) = some cs :=
  decode_eq_some_iff.mpr rfl

/-- Valid UTF-8. -/
def Valid (v : Bytes) : Prop := (decode v).isSome = true

instance (v : Bytes) : Decidable (Valid v) := inferInstanceAs (Decidable (_ = true))

theorem valid_iff {v : Bytes} : Valid v ↔ ∃ cs, encode cs = v := by
  unfold Valid
  rw [Option.isSome_iff_exists]
  exact exists_congr fun cs => decode_eq_some_iff

theorem valid_encode (cs : List Char) : Valid (encode cs) := valid_iff.mpr ⟨cs, rfl⟩

theorem valid_append {v w : Bytes} (hv : Valid v) (hw : Valid w) : Valid (v ++ w) := by
  obtain ⟨cs, rfl⟩ := valid_iff.mp hv
  obtain ⟨ds, rfl⟩ := valid_iff.mp hw
  rw [← encode_append]
  exact valid_encode _

/-! ## Cutting valid text -/

/-- The bytes after the first of a character are continuation bytes. -/
theorem continuation_of_mem_tail (c : Char) :
    ∀ b ∈ (String.utf8EncodeChar c).tail, continuation b = true := by
  have hof : ∀ m, m < 64 → continuation (UInt8.ofNat (m + 128)) = true := fun m hm => by
    rw [continuation_iff]
    simp [Nat.mod_eq_of_lt (show m + 128 < 256 by omega)]
    omega
  intro b hb
  unfold String.utf8EncodeChar at hb
  dsimp only at hb
  split at hb
  · exact absurd hb (by simp)
  · split at hb
    · simp only [List.tail_cons, List.mem_cons, List.not_mem_nil, or_false] at hb
      subst hb; exact hof _ (by omega)
    · split at hb
      · simp only [List.tail_cons, List.mem_cons, List.not_mem_nil, or_false] at hb
        rcases hb with rfl | rfl <;> exact hof _ (by omega)
      · simp only [List.tail_cons, List.mem_cons, List.not_mem_nil, or_false] at hb
        rcases hb with rfl | rfl | rfl <;> exact hof _ (by omega)

/-- A character with an ASCII byte in it is that byte. -/
theorem eq_singleton_of_mem_ascii {c : Char} {x : UInt8} (hx : x < 0x80)
    (h : x ∈ String.utf8EncodeChar c) : String.utf8EncodeChar c = [x] := by
  have hof : ∀ m, m < 256 → 128 ≤ m → ¬UInt8.ofNat m < 0x80 := fun m hm hge hlt => by
    rw [UInt8.lt_iff_toNat_lt] at hlt
    simp [Nat.mod_eq_of_lt hm] at hlt
    omega
  unfold String.utf8EncodeChar at h ⊢
  dsimp only at h ⊢
  split at h
  · rename_i h1
    rw [if_pos h1, List.mem_singleton.mp h]
  · exfalso
    split at h
    · simp only [List.mem_cons, List.not_mem_nil, or_false] at h
      rcases h with rfl | rfl <;> exact hof _ (by omega) (by omega) hx
    · split at h
      · simp only [List.mem_cons, List.not_mem_nil, or_false] at h
        rcases h with rfl | rfl | rfl <;> exact hof _ (by omega) (by omega) hx
      · simp only [List.mem_cons, List.not_mem_nil, or_false] at h
        rcases h with rfl | rfl | rfl | rfl <;> exact hof _ (by omega) (by omega) hx

/-- **Cutting at an ASCII byte leaves valid text on both sides.** -/
theorem valid_split {x : UInt8} (hx : x < 0x80) : ∀ (cs : List Char) {a b : Bytes},
    encode cs = a ++ x :: b → Valid a ∧ Valid b
  | [], a, b, h => by simp at h
  | c :: cs, a, b, h => by
      rw [encode_cons] at h
      rcases List.append_eq_append_iff.mp h with ⟨a', rfl, h'⟩ | ⟨l, hl, h'⟩
      · -- the cut is after this character
        obtain ⟨ha, hb⟩ := valid_split hx cs h'
        have hc : Valid (String.utf8EncodeChar c) := valid_iff.mpr ⟨[c], by simp⟩
        exact ⟨valid_append hc ha, hb⟩
      · cases l with
        | nil =>
            rw [List.append_nil] at hl
            rw [List.nil_append] at h'
            obtain ⟨_, hb⟩ := valid_split hx cs (a := []) h'.symm
            exact ⟨valid_iff.mpr ⟨[c], by rw [← hl]; simp⟩, hb⟩
        | cons y l =>
            -- the cut is inside this character, which is then the separator itself
            rw [List.cons_append] at h'
            obtain ⟨rfl, rfl⟩ := List.cons.inj h'
            have hs := eq_singleton_of_mem_ascii hx (c := c) (by rw [hl]; simp)
            rw [hs] at hl
            have ha : a = [] ∧ l = [] := by
              have := congrArg List.length hl
              simp only [List.length_cons, List.length_nil, List.length_append] at this
              exact ⟨List.eq_nil_of_length_eq_zero (by omega),
                List.eq_nil_of_length_eq_zero (by omega)⟩
            rw [ha.1, ha.2]
            exact ⟨valid_encode [], by simpa using valid_encode cs⟩

/-- `str::is_char_boundary`. -/
def charBoundary (v : Bytes) (i : Nat) : Bool :=
  i == 0 || i == v.length || (v[i]?.map fun b => !continuation b).getD false

/-- **Cutting at a character boundary leaves valid text on both sides.** -/
theorem valid_cut : ∀ (cs : List Char) (i : Nat), charBoundary (encode cs) i = true →
    Valid ((encode cs).take i) ∧ Valid ((encode cs).drop i)
  | [], i, _ => by simp only [encode_nil, List.take_nil, List.drop_nil]; exact ⟨rfl, rfl⟩
  | c :: cs, i, h => by
      rw [encode_cons] at h ⊢
      have hc : Valid (String.utf8EncodeChar c) := valid_iff.mpr ⟨[c], by simp⟩
      obtain ⟨a, tl, he⟩ := List.exists_cons_of_ne_nil (utf8EncodeChar_ne_nil c)
      rcases Nat.lt_or_ge i (String.utf8EncodeChar c).length with hi | hi
      · -- inside this character: only its start is a boundary
        cases i with
        | zero =>
            rw [List.take_zero, List.drop_zero]
            exact ⟨rfl, valid_append hc (valid_encode cs)⟩
        | succ i =>
            exfalso
            have hget : (String.utf8EncodeChar c ++ encode cs)[i + 1]?
                = some ((String.utf8EncodeChar c)[i + 1]) := by
              rw [List.getElem?_append_left hi, List.getElem?_eq_getElem hi]
            have hmem : (String.utf8EncodeChar c)[i + 1] ∈ (String.utf8EncodeChar c).tail := by
              simp only [he] at hi ⊢
              simp
            have hcont := continuation_of_mem_tail c _ hmem
            have hlen : i + 1 ≠ (String.utf8EncodeChar c ++ encode cs).length := by
              rw [List.length_append]; omega
            simp only [charBoundary, hget, Option.map_some, Option.getD_some, hcont] at h
            simp only [Bool.or_eq_true, beq_iff_eq] at h
            rcases h with (h | h) | h
            · omega
            · exact hlen h
            · exact Bool.noConfusion h
      · -- after this character
        have hb : charBoundary (encode cs) (i - (String.utf8EncodeChar c).length) = true := by
          unfold charBoundary at h ⊢
          rw [List.getElem?_append_right hi, List.length_append] at h
          simp only [Bool.or_eq_true, beq_iff_eq] at h ⊢
          have hpos : 0 < (String.utf8EncodeChar c).length := by rw [he]; simp
          rcases h with (h | h) | h
          · omega
          · exact Or.inl (Or.inr (by omega))
          · exact Or.inr h
        obtain ⟨h1, h2⟩ := valid_cut cs _ hb
        rw [List.take_append, List.drop_append, List.take_of_length_le hi,
          List.drop_eq_nil_of_le hi, List.nil_append]
        exact ⟨valid_append hc h1, h2⟩

/-- Text of ASCII bytes is valid. -/
theorem valid_of_ascii : ∀ {v : Bytes}, (∀ b ∈ v, b < 0x80) → Valid v
  | [], _ => rfl
  | b :: v, h => by
      have hb := h b (by simp)
      rw [UInt8.lt_iff_toNat_lt] at hb
      have hb' : b.toNat < 0x80 := hb
      have hv := val_ofNat (n := b.toNat) (by unfold Nat.isValidChar; omega)
      have h1 : Valid [b] := by
        refine valid_iff.mpr ⟨[Char.ofNat b.toNat], ?_⟩
        simp only [encode_cons, encode_nil, List.append_nil, String.utf8EncodeChar, hv]
        rw [if_pos (by omega), byte_eq (by omega) rfl]
      exact valid_append h1 (valid_of_ascii fun x hx => h x (List.mem_cons_of_mem _ hx))

end Utf8

end SigV4
