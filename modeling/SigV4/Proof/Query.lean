import SigV4.Proof.Path
import SigV4.Spec.Query

/-!
# Queries meet their specification

`canonical_query` accepts exactly the queries `accepted` does. The text it returns is
`canonicalString` of the pairs, and each of the six slots holds the last value of its
name and the number of its pieces, so `single_known_query_value` is `single`.
-/

namespace SigV4

open Outcome Ascii Percent Spec

variable {ε : Type}

/-! ## The slots -/

/-- The value in a slot after all values of its name have been stored. -/
def lastValue (k : Known) (ps : List Pair) : Str :=
  ((values k ps).getLast?.bind Str.fromUtf8).getD .empty

/-- The slots after all pairs have been stored. -/
def SigV4Query.ofPairs (ps : List Pair) : SigV4Query where
  algorithm := lastValue .algorithm ps
  algorithmCount := (values .algorithm ps).length
  credential := lastValue .credential ps
  credentialCount := (values .credential ps).length
  date := lastValue .date ps
  dateCount := (values .date ps).length
  expires := lastValue .expires ps
  expiresCount := (values .expires ps).length
  signedHeaders := lastValue .signedHeaders ps
  signedHeadersCount := (values .signedHeaders ps).length
  signature := lastValue .signature ps
  signatureCount := (values .signature ps).length

/-- What `single_known_query_value` reads from the slot of a name. -/
def SigV4Query.single (q : SigV4Query) : Known → Option Str
  | .algorithm => singleKnownQueryValue q.algorithm q.algorithmCount
  | .credential => singleKnownQueryValue q.credential q.credentialCount
  | .date => singleKnownQueryValue q.date q.dateCount
  | .expires => singleKnownQueryValue q.expires q.expiresCount
  | .signedHeaders => singleKnownQueryValue q.signedHeaders q.signedHeadersCount
  | .signature => singleKnownQueryValue q.signature q.signatureCount

theorem values_append (j k : Known) (ps : List Pair) (v : Bytes) :
    values j (ps ++ [(k.name, v)]) = if k = j then values j ps ++ [v] else values j ps := by
  unfold values
  rw [List.filter_append, List.map_append]
  by_cases h : k = j
  · rw [if_pos h, h]; simp
  · have hne : k.name ≠ j.name := fun hn => h (Known.name_injective hn)
    rw [if_neg h]; simp [hne]

theorem lastValue_append (j k : Known) (ps : List Pair) (s : Str) :
    lastValue j (ps ++ [(k.name, s.bytes)]) = if k = j then s else lastValue j ps := by
  unfold lastValue
  rw [values_append]
  by_cases h : k = j
  · rw [if_pos h, if_pos h, List.getLast?_append]
    simp [Str.fromUtf8_bytes]
  · rw [if_neg h, if_neg h]

theorem values_append_unknown {n : Bytes} (h : isKnown n = false) (k : Known) (ps : List Pair)
    (v : Bytes) : values k (ps ++ [(n, v)]) = values k ps := by
  have hne : n ≠ k.name := by
    intro hk
    rw [isKnown_iff.mpr ⟨k, hk.symm⟩] at h
    exact Bool.noConfusion h
  unfold values
  rw [List.filter_append, List.map_append]
  simp [hne]

/-- A name the verifier does not read changes no slot. -/
theorem ofPairs_append_unknown {n : Bytes} (h : isKnown n = false) (ps : List Pair) (v : Bytes) :
    SigV4Query.ofPairs (ps ++ [(n, v)]) = .ofPairs ps := by
  unfold SigV4Query.ofPairs lastValue
  simp only [values_append_unknown h]

/-- A value stored in the slot of its name. -/
def SigV4Query.store (q : SigV4Query) (s : Str) : Known → SigV4Query
  | .algorithm => { q with algorithm := s, algorithmCount := q.algorithmCount + 1 }
  | .credential => { q with credential := s, credentialCount := q.credentialCount + 1 }
  | .date => { q with date := s, dateCount := q.dateCount + 1 }
  | .expires => { q with expires := s, expiresCount := q.expiresCount + 1 }
  | .signedHeaders => { q with signedHeaders := s, signedHeadersCount := q.signedHeadersCount + 1 }
  | .signature => { q with signature := s, signatureCount := q.signatureCount + 1 }

theorem set_eq (q : SigV4Query) (k : Known) (s : Str) :
    q.set k.name s.bytes = ok (q.store s k) := by
  unfold SigV4Query.set
  rw [Str.fromUtf8_bytes, ofOption_some, ok_bind]
  cases k <;> rfl

theorem store_ofPairs (k : Known) (ps : List Pair) (s : Str) :
    (SigV4Query.ofPairs ps).store s k = .ofPairs (ps ++ [(k.name, s.bytes)]) := by
  have hlen : ∀ j, (values j (ps ++ [(k.name, s.bytes)])).length
      = if k = j then (values j ps).length + 1 else (values j ps).length := by
    intro j
    rw [values_append]
    split <;> simp
  unfold SigV4Query.ofPairs
  simp only [hlen, lastValue_append]
  cases k <;> rfl

theorem set_exit (q : SigV4Query) (name : Bytes) {value : Bytes} (h : ¬Utf8.Valid value) :
    q.set name value = exit ⟨⟩ := by
  unfold SigV4Query.set Str.fromUtf8
  rw [dif_neg h]; rfl

/-- **A slot is read as the specification reads its name.** -/
theorem ofPairs_single {ps : List Pair} (h : Acceptable ps) (k : Known) :
    (SigV4Query.ofPairs ps).single k = single k ps := by
  have hslot : singleKnownQueryValue (lastValue k ps) (values k ps).length = single k ps := by
    unfold singleKnownQueryValue single
    match hv : values k ps with
    | [] => rfl
    | [v] =>
        -- the one value is text, since the query was accepted
        have hmem : v ∈ values k ps := by rw [hv]; simp
        obtain ⟨p, hp, rfl⟩ := List.mem_map.mp hmem
        obtain ⟨hp, hk⟩ := List.mem_filter.mp hp
        have hvalid := (h p hp).2 (isKnown_iff.mpr ⟨k, (eq_of_beq hk).symm⟩)
        have hlast : lastValue k ps = ⟨p.2, hvalid⟩ := by
          unfold lastValue
          rw [hv]
          simp [Str.fromUtf8_of_valid hvalid]
        rw [hlast]
        exact (Str.fromUtf8_of_valid hvalid).symm
    | _ :: _ :: _ => rfl
  cases k <;> exact hslot

/-! ## One piece -/

theorem isKnownQueryName_eq (name : Bytes) : isKnownQueryName name = isKnown name := by
  have hcomm : ∀ k : Known, (k.name == name) = (name == k.name) := fun k => Bool.beq_comm
  unfold isKnown Known.all isKnownQueryName
  simp only [List.any_cons, List.any_nil, hcomm, Bool.or_false, ← Bool.or_assoc]
  rfl

theorem cutPart_eq (part : Bytes) :
    cutPart (ε := ε) part = ok (pieceName part, pieceValue part) := by
  have hle := field_length_le equals part
  have heq : (part.findIdx? (· == equals)).getD part.length = (field equals part).length := by
    rw [findIdx?_field]
    by_cases hm : equals ∈ part
    · rw [if_pos hm]; rfl
    · rw [if_neg hm, field_eq_of_not_mem hm]; rfl
  unfold cutPart pieceName pieceValue
  rw [heq]
  dsimp only
  rw [slice_of_le (Nat.zero_le _) hle, ok_bind, List.drop_zero, Nat.sub_zero, take_field]
  by_cases hlt : (field equals part).length < part.length
  · rw [if_pos hlt, slice_to_end hlt, ok_bind]
  · rw [if_neg hlt, List.drop_eq_nil_of_le (by omega)]

/-- A pair the verifier goes on with. -/
def goodPair (p : Pair) : Bool := p.1 != [] && (!isKnown p.1 || decide (Utf8.Valid p.2))

theorem acceptable_iff {ps : List Pair} : Acceptable ps ↔ ps.all goodPair = true := by
  unfold Acceptable
  rw [List.all_eq_true]
  refine forall₂_congr fun p _ => ?_
  unfold goodPair
  cases isKnown p.1 <;> simp

/-- The parameters pushed for a list of pairs. -/
def paramsOf (ps : List Pair) : List CanonicalQueryParam :=
  (signed ps).map fun p => ⟨encode p.1, encode p.2⟩

theorem paramsOf_append (ps qs : List Pair) : paramsOf (ps ++ qs) = paramsOf ps ++ paramsOf qs := by
  unfold paramsOf signed
  rw [List.filter_append, List.map_append]

theorem setIf_known (ps : List Pair) {p : Pair} (hk : isKnown p.1 = true) :
    (SigV4Query.ofPairs ps).setIf true p.1 (some p.2)
      = if Utf8.Valid p.2 then ok (.ofPairs (ps ++ [p])) else exit ⟨⟩ := by
  obtain ⟨n, v⟩ := p
  obtain ⟨k, rfl⟩ := isKnown_iff.mp hk
  unfold SigV4Query.setIf
  rw [if_pos rfl, expect_some, ok_bind]
  by_cases hv : Utf8.Valid v
  · have hset := set_eq (.ofPairs ps) k ⟨v, hv⟩
    rw [if_pos hv]
    exact hset.trans (congrArg ok (store_ofPairs k ps ⟨v, hv⟩))
  · rw [if_neg hv, set_exit _ _ hv]

/-- **One piece**: its pair is stored and pushed, or the query is rejected. -/
theorem canonicalQueryPart_eq (ps : List Pair) (part : Bytes) :
    canonicalQueryPart (paramsOf ps, .ofPairs ps) part
      = match (decodePiece part).filter goodPair with
        | some p => ok (paramsOf (ps ++ [p]), .ofPairs (ps ++ [p]))
        | none => exit ⟨⟩ := by
  unfold canonicalQueryPart
  dsimp only
  rw [cutPart_eq, ok_bind]
  dsimp only
  rw [canonicalizeQueryComponent_eq]
  unfold decodePiece
  cases hn : Percent.decode (pieceName part) with
  | none => rfl
  | some n =>
      dsimp only [Option.map_some, ofOption_some, ok_bind, if_true, expect_some, Option.bind_eq_bind,
        Option.bind_some]
      rw [if_pos rfl, expect_some, ok_bind]
      by_cases hne : n = []
      · -- the empty name
        subst hne
        cases Percent.decode (pieceValue part) <;> rfl
      · have hemp : n.isEmpty = false := by simpa using hne
        rw [hemp, exitIf_false, ok_bind]
        by_cases hs : n = xAmzSignature
        · -- the signature is stored and not pushed
          have hk : isKnown n = true := isKnown_iff.mpr ⟨.signature, hs.symm⟩
          rw [if_pos (by simpa using hs), canonicalizeQueryComponent_eq]
          cases hv : Percent.decode (pieceValue part) with
          | none => rfl
          | some v =>
              dsimp only [Option.map_some, ofOption_some, ok_bind, Option.bind_some]
              rw [if_pos rfl, setIf_known ps (p := (n, v)) hk]
              by_cases hvalid : Utf8.Valid v
              · have hgood : goodPair (n, v) = true := by simp [goodPair, hne, hvalid]
                have hpush : paramsOf (ps ++ [(n, v)]) = paramsOf ps := by
                  have hsig : (n != Known.signature.name) = false := by
                    rw [hs]; rfl
                  rw [paramsOf_append]
                  simp [paramsOf, signed, hsig]
                rw [if_pos hvalid, Option.filter_some, if_pos hgood]
                dsimp only
                rw [hpush]
                rfl
              · have hgood : goodPair (n, v) = false := by simp [goodPair, hk, hvalid]
                rw [if_neg hvalid, Option.filter_some, if_neg (by rw [hgood]; simp)]
                rfl
        · have hsig : (n != Known.signature.name) = true := bne_iff_ne.mpr hs
          rw [if_neg (by simpa using hs), canonicalizeQueryComponent_eq, isKnownQueryName_eq]
          cases hv : Percent.decode (pieceValue part) with
          | none => rfl
          | some v =>
              have hpush : paramsOf (ps ++ [(n, v)]) = paramsOf ps ++ [⟨encode n, encode v⟩] := by
                rw [paramsOf_append]
                simp [paramsOf, signed, hsig]
              dsimp only [Option.map_some, ofOption_some, ok_bind, Option.bind_some]
              cases hk : isKnown n with
              | true =>
                  rw [if_pos rfl, setIf_known ps (p := (n, v)) hk]
                  by_cases hvalid : Utf8.Valid v
                  · have hgood : goodPair (n, v) = true := by simp [goodPair, hne, hvalid]
                    rw [if_pos hvalid, Option.filter_some, if_pos hgood]
                    dsimp only
                    rw [hpush]
                    rfl
                  · have hgood : goodPair (n, v) = false := by simp [goodPair, hk, hvalid]
                    rw [if_neg hvalid, Option.filter_some, if_neg (by rw [hgood]; simp)]
                    rfl
              | false =>
                  have hgood : goodPair (n, v) = true := by simp [goodPair, hne, hk]
                  rw [Option.filter_some, if_pos hgood]
                  dsimp only
                  rw [hpush, ofPairs_append_unknown hk]
                  rfl

/-- All pieces: their pairs are collected in order, unless one of them is rejected. -/
theorem foldlM_canonicalQueryPart : ∀ (l : List Bytes) (ps : List Pair),
    l.foldlM canonicalQueryPart (paramsOf ps, .ofPairs ps)
      = match (l.mapM decodePiece).filter (·.all goodPair) with
        | some qs => ok (paramsOf (ps ++ qs), .ofPairs (ps ++ qs))
        | none => exit ⟨⟩
  | [], ps => by
      show ok (paramsOf ps, SigV4Query.ofPairs ps)
        = ok (paramsOf (ps ++ []), SigV4Query.ofPairs (ps ++ []))
      rw [List.append_nil]
  | part :: l, ps => by
      rw [List.foldlM_cons, canonicalQueryPart_eq, List.mapM_cons]
      cases hd : decodePiece part with
      | none => rfl
      | some p =>
          cases hg : goodPair p with
          | true =>
              rw [Option.filter_some, if_pos hg]
              dsimp only
              rw [ok_bind, foldlM_canonicalQueryPart l]
              cases hm : l.mapM decodePiece with
              | none => rfl
              | some qs =>
                  cases hall : qs.all goodPair <;>
                    simp [Option.filter_some, hg, hall]
          | false =>
              rw [Option.filter_some, if_neg (by rw [hg]; simp)]
              cases hm : l.mapM decodePiece with
              | none => rfl
              | some qs => simp [Option.filter_some, hg]

/-! ## The text -/

theorem le_iff {a b : Pair} :
    CanonicalQueryParam.le ⟨a.1, a.2⟩ ⟨b.1, b.2⟩ ↔ PairLe a b := by
  unfold CanonicalQueryParam.le CanonicalQueryParam.cmp PairLe
  dsimp only
  cases hc : compare a.1 b.1 with
  | lt => simp [compare_bytes_lt.mp hc]
  | eq =>
      have he := Std.LawfulEqOrd.eq_of_compare hc
      have hirr : ¬a.1 < b.1 := by rw [he]; exact bytes_lt_irrefl _
      dsimp only
      rw [compare_bytes_isLE]
      simp [he]
  | gt =>
      have hlt : ¬a.1 < b.1 := by
        intro h
        rw [compare_bytes_lt.mpr h] at hc
        exact Ordering.noConfusion hc
      have hne : ¬a.1 = b.1 := by
        intro h
        rw [Std.LawfulEqOrd.compare_eq_iff_eq.mpr h] at hc
        exact Ordering.noConfusion hc
      simp [hlt, hne]

theorem sortParams_eq (ps : List Pair) :
    sortParams (paramsOf ps) = (sortedPairs ps).map fun e => ⟨e.1, e.2⟩ := by
  unfold sortParams sortedPairs paramsOf
  rw [List.map_insertionSort PairLe CanonicalQueryParam.le (fun e : Pair => ⟨e.1, e.2⟩) _
    (fun a _ b _ => le_iff.symm), List.map_map]
  rfl

/-- The writing loop past its first parameter: an `&` before each. -/
theorem foldl_write : ∀ (l : List CanonicalQueryParam) (idx : Nat) (out : Bytes), 0 < idx →
    (l.foldl (fun (idx, out) param =>
      (idx + 1, (if idx > 0 then out ++ [amp] else out) ++ param.write)) (idx, out)).2
      = out ++ l.flatMap fun param => amp :: param.write
  | [], _, out, _ => by simp
  | param :: l, idx, out, hidx => by
      rw [List.foldl_cons, foldl_write l (idx + 1) _ (by omega), if_pos hidx, List.flatMap_cons]
      simp

theorem writeParams_eq (l : List CanonicalQueryParam) :
    writeParams l = [amp].intercalate (l.map CanonicalQueryParam.write) := by
  unfold writeParams
  cases l with
  | nil => rfl
  | cons param l =>
      rw [List.foldl_cons, foldl_write l 1 _ (by omega), List.map_cons, intercalate_eq_flatMap,
        List.flatMap_map]
      rfl

/-! ## The whole query -/

/-- The loop visits every piece. -/
theorem canonicalQueryLoop_eq {raw : Bytes} (hne : raw ≠ []) (hlast : raw.getLast? ≠ some amp) :
    loop (canonicalQueryBody raw) (raw.length + 2) (0, [], SigV4Query.default)
      = (raw.splitOn amp).foldlM canonicalQueryPart ([], .default) := by
  have hpos := List.length_pos_iff.mpr hne
  -- no piece is empty where the loop stands on a piece it takes: the empty one is rejected by
  -- its empty name as well
  have hempty : ∀ t, canonicalQueryPart t [] = exit ⟨⟩ := fun _ => rfl
  have hloop := splitLoop_eq (v := raw) (x := amp) (B := canonicalQueryBody raw) (f := id)
    (I := fun i => i < raw.length) (g := canonicalQueryPart)
    (fun i hi => Nat.le_of_lt hi)
    (fun i hi hm => by
      have hspec := (field_spec amp (raw.drop i)).resolve_left fun hn => hn.1 hm
      have hlen := congrArg List.length hspec
      simp only [List.length_append, List.length_cons, List.length_drop] at hlen
      rcases Nat.lt_or_ge (i + (field amp (raw.drop i)).length + 1) raw.length with h | h
      · exact h
      · -- the separator would be the last byte
        exfalso
        have hnil : (raw.drop i).drop ((field amp (raw.drop i)).length + 1) = [] := by
          rw [List.drop_drop]
          exact List.drop_eq_nil_of_le (by omega)
        rw [hnil] at hspec
        refine hlast ?_
        have hraw := List.take_append_drop i raw
        rw [hspec] at hraw
        rw [← hraw]
        simp)
    (fun i t hi => by
      have hfl := field_length_le amp (raw.drop i)
      rw [List.length_drop] at hfl
      obtain ⟨c, _, hd⟩ := drop_cons_of_lt hi
      unfold canonicalQueryBody
      dsimp only
      rw [if_pos hi, findFrom_eq (Nat.le_of_lt hi), ok_bind]
      cases hf : field amp (raw.drop i) with
      | nil =>
          rw [List.length_nil, Nat.add_zero, if_pos (by simp), hempty]
          rfl
      | cons b f =>
          rw [hf] at hfl
          have htake := take_field amp (raw.drop i)
          rw [hf] at htake
          rw [if_neg (by simp), slice_of_le (by omega) (by omega), ok_bind,
            Nat.add_sub_cancel_left, htake])
    (fun i t hi => by
      unfold canonicalQueryBody
      dsimp only
      rw [if_neg (by omega)]; rfl)
    (raw.length + 2) 0 ([], .default) hpos (by omega)
  rw [hloop, List.drop_zero]
  exact id_map _

/-- A query that ends in `&` has an empty last piece. -/
theorem accepted_of_trailing {raw : Bytes} (h : raw.getLast? = some amp) : accepted raw = none := by
  obtain ⟨v, rfl⟩ := List.getLast?_eq_some_iff.mp h
  cases ha : accepted (v ++ [amp]) with
  | none => rfl
  | some ps =>
      obtain ⟨hp, hacc⟩ := accepted_eq_some.mp ha
      exfalso
      unfold pairs at hp
      rw [if_neg (by simp)] at hp
      have hsplit : (v ++ [amp]).splitOn amp = v.splitOn amp ++ [[]] := by
        rw [List.splitOn_append_cons_self]
        rfl
      rw [hsplit, List.mapM_append] at hp
      simp only [List.mapM_cons, List.mapM_nil] at hp
      have hnil : decodePiece [] = some ([], []) := rfl
      rw [hnil] at hp
      cases hm : (v.splitOn amp).mapM decodePiece with
      | none => rw [hm] at hp; exact absurd hp (by simp)
      | some qs =>
          rw [hm] at hp
          have hps : qs ++ [(([] : Bytes), ([] : Bytes))] = ps := by simpa using hp
          exact (hacc ([], []) (by rw [← hps]; simp)).1 rfl

/--
**`canonical_query` meets its specification.** It accepts the queries `accepted` does,
returns the canonical query string of their pairs, and fills the six slots from them.
-/
theorem canonicalQuery_eq (raw : Bytes) :
    canonicalQuery raw = match accepted raw with
      | some ps => ok (canonicalString ps, .ofPairs ps)
      | none => exit ⟨⟩ := by
  unfold canonicalQuery
  by_cases hne : raw = []
  · subst hne; rfl
  · have hemp : raw.isEmpty = false := by simpa using hne
    rw [hemp, if_neg (by simp)]
    by_cases hlast : raw.getLast? = some amp
    · rw [if_pos (by simp [hlast]), accepted_of_trailing hlast]
    · have hfold := foldlM_canonicalQueryPart (raw.splitOn amp) []
      have hstart : (paramsOf [], SigV4Query.ofPairs []) = ([], .default) := rfl
      have hacc : accepted raw
          = ((raw.splitOn amp).mapM decodePiece).filter (·.all goodPair) := by
        unfold accepted pairs
        rw [if_neg hne]
        congr 1
        funext ps
        rw [Bool.eq_iff_iff, decide_eq_true_iff]
        exact acceptable_iff
      rw [hstart] at hfold
      rw [if_neg (by simpa using hlast), canonicalQueryLoop_eq hne hlast, hfold, hacc]
      cases ((raw.splitOn amp).mapM decodePiece).filter (·.all goodPair) with
      | none => rfl
      | some ps =>
          dsimp only
          rw [ok_bind, List.nil_append, sortParams_eq, writeParams_eq, List.map_map]
          rfl

end SigV4
