import SigV4.Lib.Percent

/-!
# Form decoding

`application/x-www-form-urlencoded` has one escape more than percent encoding: a `+` that
is not escaped is a space. The two decoders differ on a literal `+` only, and every string
of bytes with a `+` in it can be written so that they do.
-/

namespace SigV4.Form

open Ascii Percent

/-- Each `+` as a space. -/
def unplus (v : Bytes) : Bytes := v.map fun c => if c = plus then space else c

/-- Decoding as form data: a `+` is a space, then percent-decoding. -/
def decode (v : Bytes) : Option Bytes := Percent.decode (unplus v)

theorem unplus_of_not_mem {v : Bytes} (h : plus ∉ v) : unplus v = v := by
  have hid : v.map (fun c => if c = plus then space else c) = v.map id := by
    refine List.map_congr_left fun c hc => if_neg ?_
    rintro rfl
    exact h hc
  rw [unplus, hid, List.map_id]

/-- No `+` is left. -/
theorem plus_not_mem_unplus (v : Bytes) : plus ∉ unplus v := by
  intro h
  obtain ⟨c, _, hc⟩ := List.mem_map.mp h
  split at hc
  · exact absurd hc (by decide)
  · rename_i hne
    exact hne hc

/-- **Without a literal `+`** the decoders agree. -/
theorem decode_of_not_mem {v : Bytes} (h : plus ∉ v) : decode v = Percent.decode v := by
  rw [decode, unplus_of_not_mem h]

/-- A literal `+` stands for itself in percent encoding. -/
theorem plus_mem_of_decode {v d : Bytes} (h : Percent.decode v = some d) (hv : plus ∈ v) :
    plus ∈ d := by
  induction v using scan_induction generalizing d with
  | hnil => exact absurd hv List.not_mem_nil
  | hesc a b rest ha hb ih =>
      rw [decode_esc ha hb, Option.map_eq_some_iff] at h
      obtain ⟨e, he, rfl⟩ := h
      refine List.mem_cons_of_mem _ (ih he ?_)
      -- a `+` is no `%` and no digit of an escape
      rcases List.mem_cons.mp hv with hv | hv
      · exact absurd hv (by decide)
      · rcases List.mem_cons.mp hv with rfl | hv
        · exact absurd ha (by decide)
        · rcases List.mem_cons.mp hv with rfl | hv
          · exact absurd hb (by decide)
          · exact hv
  | hlit c rest hc ih =>
      have hne : c ≠ percent := by
        rintro rfl
        exact not_wellFormed_of_hexPair (hc rfl) (decode_eq_some.mp h).1
      rw [decode_cons_ne hne, Option.map_eq_some_iff] at h
      obtain ⟨e, he, rfl⟩ := h
      rcases List.mem_cons.mp hv with rfl | hv
      · exact List.mem_cons_self
      · exact List.mem_cons_of_mem _ (ih he hv)

/-- **Without a `+` in what is meant** the decoders agree, however it is written. -/
theorem decode_eq_of_plus_not_mem {v d : Bytes} (h : Percent.decode v = some d) (hd : plus ∉ d) :
    decode v = some d := by
  rw [decode_of_not_mem fun hv => hd (plus_mem_of_decode h hv), h]

/-- Percent encoding escapes `+`, so its output reads alike. -/
theorem decode_encode (v : Bytes) : decode (encode v) = some v := by
  rw [decode_of_not_mem (not_mem_encode rfl v), Percent.decode_encode]

/-! ## Writing a `+` as it is -/

/-- Percent encoding, except that a `+` stays. -/
def looseEncode (v : Bytes) : Bytes := v.flatMap fun c => if c = plus then [plus] else encodeByte c

theorem looseEncode_cons (c : UInt8) (v : Bytes) :
    looseEncode (c :: v) = (if c = plus then [plus] else encodeByte c) ++ looseEncode v :=
  List.flatMap_cons ..

/-- It writes a `+` and encoded text only. -/
theorem mem_looseEncode {v : Bytes} {b : UInt8} (h : b ∈ looseEncode v) :
    b = plus ∨ encodedByte b = true := by
  obtain ⟨c, _, hc⟩ := List.mem_flatMap.mp h
  split at hc
  · exact Or.inl (List.mem_singleton.mp hc)
  · have hmem : b ∈ encode [c] := by
      rw [encode_cons, encode_nil, List.append_nil]
      exact hc
    exact Or.inr (encodedByte_of_mem b hmem)

/-- Percent decoding undoes it. -/
theorem percentDecode_looseEncode (v : Bytes) : Percent.decode (looseEncode v) = some v := by
  induction v with
  | nil => rfl
  | cons c v ih =>
      rw [looseEncode_cons]
      split
      · rename_i hc
        have hne : plus ≠ percent := by decide
        rw [List.singleton_append, decode_cons_ne hne, ih, hc]
        rfl
      · rw [decode_encodeByte_append, ih]
        rfl

theorem unplus_append (v w : Bytes) : unplus (v ++ w) = unplus v ++ unplus w := List.map_append

theorem plus_not_mem_encodeByte (c : UInt8) : plus ∉ encodeByte c := by
  have h := not_mem_encode (c := plus) rfl [c]
  rwa [encode_cons, encode_nil, List.append_nil] at h

/-- **Form decoding does not**: it turns every `+` into a space. -/
theorem decode_looseEncode (v : Bytes) : decode (looseEncode v) = some (unplus v) := by
  unfold decode
  induction v with
  | nil => rfl
  | cons c v ih =>
      rw [looseEncode_cons, unplus_append]
      split
      · rename_i hc
        have hne : space ≠ percent := by decide
        have hplus : unplus [plus] = [space] := rfl
        rw [hplus, List.singleton_append, decode_cons_ne hne, ih, hc]
        rfl
      · rename_i hc
        rw [unplus_of_not_mem (plus_not_mem_encodeByte c), decode_encodeByte_append, ih]
        show some (c :: unplus v) = some ((if c = plus then space else c) :: unplus v)
        rw [if_neg hc]

end SigV4.Form
