import SigV4.Proof.Directive
import SigV4.Spec.HttpBlock

/-!
# What loading an `http` block does

`Effect` says what one directive can do to the configuration. From it follow, by induction
over the block, what a whole block does: its own mode, the flag `enabled_anywhere` and the
credentials.
-/

namespace SigV4

open Outcome

theorem guardConf_eq_ok {α : Type} {x : Outcome ConfError α} {a : α} :
    guardConf x = ok a ↔ x = ok a := by
  cases x <;> simp [guardConf]

/-! ## One directive -/

/-- The arguments of a directive are read as this credential. -/
def ReadsCredential (args : List Bytes) (directive : CredentialDirective) : Prop :=
  ∃ texts, args.mapM Str.fromUtf8 = some texts ∧ CredentialDirective.parse texts = ok directive

/-- The parts of the configuration that no setting changes. -/
structure SameRest (main main' : MainConf) : Prop where
  credentials : main'.credentials = main.credentials
  enabledAnywhere : main'.enabledAnywhere = main.enabledAnywhere
  verifier : main'.verifier = main.verifier

/-- What a directive does. -/
inductive Effect (main : MainConf) (loc : LocConf) :
    Command → List Bytes → MainConf → LocConf → Prop where
  | verify {arg : Bytes} {mode : Mode} (hunset : loc.mode = .unset)
      (hmode : modeOfText arg = some mode) :
      Effect main loc .verify [arg]
        (if mode.verifies then { main with enabledAnywhere := true } else main) ⟨mode⟩
  | credential {args : List Bytes} {directive : CredentialDirective}
      (hreads : ReadsCredential args directive)
      (hfresh : ∀ other ∈ main.credentials, other.accessKey ≠ directive.accessKey) :
      Effect main loc .credential args
        { main with credentials := main.credentials ++ [directive] } loc
  | setting {command : Command} {args : List Bytes} {main' : MainConf}
      (hverify : command ≠ .verify) (hcredential : command ≠ .credential)
      (hsame : SameRest main main') : Effect main loc command args main' loc

theorem modeOfText_of_parse {s : Str} {mode : Mode} (h : Mode.parse s = ok mode) :
    modeOfText s.bytes = some mode := by
  unfold Mode.parse at h
  unfold modeOfText
  by_cases hon : s = .lit "on"
  · subst hon
    rw [← Outcome.ok.inj h]
    rfl
  · by_cases hoff : s = .lit "off"
    · subst hoff
      rw [← Outcome.ok.inj h]
      rfl
    · by_cases hshadow : s = .lit "shadow"
      · subst hshadow
        rw [← Outcome.ok.inj h]
        rfl
      · rw [if_neg (by simpa using hon), if_neg (by simpa using hoff),
          if_neg (by simpa using hshadow)] at h
        exact absurd h (by simp)

theorem directiveArgs_eq_ok {args : List Bytes} {texts : List Str} :
    directiveArgs args = ok texts ↔ args.mapM Str.fromUtf8 = some texts := ofOption_eq_ok

theorem setMode_eq_ok {arg : Bytes} {main main' : MainConf} {loc loc' : LocConf}
    (h : setMode [arg] main loc = ok (main', loc')) :
    ∃ mode, loc.mode = .unset ∧ modeOfText arg = some mode
      ∧ main' = (if mode.verifies then { main with enabledAnywhere := true } else main)
      ∧ loc' = ⟨mode⟩ := by
  unfold setMode at h
  rw [guardConf_eq_ok] at h
  by_cases hunset : loc.mode = .unset
  · rw [if_neg (by simpa using hunset)] at h
    obtain ⟨texts, htexts, h⟩ := bind_eq_ok.mp h
    obtain ⟨s, hs, h⟩ := bind_eq_ok.mp h
    obtain ⟨mode, hmode, h⟩ := bind_eq_ok.mp h
    obtain ⟨hmain, hloc⟩ := Prod.mk.inj (Outcome.ok.inj h)
    have hbytes : s.bytes = arg := by
      have htexts := directiveArgs_eq_ok.mp htexts
      cases harg : Str.fromUtf8 arg with
      | none => simp [harg] at htexts
      | some s' =>
          simp [harg] at htexts
          subst htexts
          rw [← Outcome.ok.inj hs]
          exact Str.fromUtf8_eq_some.mp harg
    exact ⟨mode, hunset, hbytes ▸ modeOfText_of_parse (mapExit_eq_ok.mp hmode), hmain.symm,
      hloc.symm⟩
  · rw [if_pos (by simpa using hunset)] at h
    exact absurd h (by simp)

theorem setCredential_eq_ok {args : List Bytes} {main main' : MainConf}
    (h : setCredential args main = ok main') :
    ∃ directive, ReadsCredential args directive
      ∧ (∀ other ∈ main.credentials, other.accessKey ≠ directive.accessKey)
      ∧ main' = { main with credentials := main.credentials ++ [directive] } := by
  unfold setCredential at h
  rw [guardConf_eq_ok] at h
  obtain ⟨texts, htexts, h⟩ := bind_eq_ok.mp h
  obtain ⟨directive, hparse, h⟩ := bind_eq_ok.mp h
  have hreads : ReadsCredential args directive :=
    ⟨texts, directiveArgs_eq_ok.mp htexts, mapExit_eq_ok.mp hparse⟩
  cases hdup : main.credentials.any (·.accessKey == directive.accessKey) with
  | true => rw [hdup, if_pos rfl] at h; exact absurd h (by simp)
  | false =>
      rw [hdup, if_neg Bool.false_ne_true] at h
      refine ⟨directive, hreads, ?_, (Outcome.ok.inj h).symm⟩
      intro other hother heq
      rw [List.any_eq_false] at hdup
      exact hdup other hother (beq_iff_eq.mpr heq)

/-- A duration leaves the rest as it is. -/
theorem setMainDuration_sameRest {slot : MainConf → Option Duration}
    {fill : MainConf → Duration → MainConf} {args : List Bytes} {main main' : MainConf}
    (hfill : ∀ d, SameRest main (fill main d)) (h : setMainDuration slot fill args main = ok main') :
    SameRest main main' := by
  unfold setMainDuration at h
  rw [guardConf_eq_ok] at h
  split at h
  · exact absurd h (by simp)
  · obtain ⟨_, _, h⟩ := bind_eq_ok.mp h
    obtain ⟨_, _, h⟩ := bind_eq_ok.mp h
    obtain ⟨d, _, h⟩ := bind_eq_ok.mp h
    exact Outcome.ok.inj h ▸ hfill d

/-- A flag leaves the rest as it is. -/
theorem setMainFlag_sameRest {slot : MainConf → Option Bool} {fill : MainConf → Bool → MainConf}
    {args : List Bytes} {main main' : MainConf} (hfill : ∀ b, SameRest main (fill main b))
    (h : setMainFlag slot fill args main = ok main') : SameRest main main' := by
  unfold setMainFlag at h
  rw [guardConf_eq_ok] at h
  split at h
  · exact absurd h (by simp)
  · obtain ⟨_, _, h⟩ := bind_eq_ok.mp h
    obtain ⟨_, _, h⟩ := bind_eq_ok.mp h
    obtain ⟨b, _, h⟩ := bind_eq_ok.mp h
    exact Outcome.ok.inj h ▸ hfill b

theorem setMethods_sameRest {args : List Bytes} {main main' : MainConf}
    (h : setMethods args main = ok main') : SameRest main main' := by
  unfold setMethods at h
  rw [guardConf_eq_ok] at h
  split at h
  · exact absurd h (by simp)
  · obtain ⟨_, _, h⟩ := bind_eq_ok.mp h
    obtain ⟨_, _, h⟩ := bind_eq_ok.mp h
    exact Outcome.ok.inj h ▸ ⟨rfl, rfl, rfl⟩

/-- **What a directive does** is one of its effects. -/
theorem Command.call_eq_ok {command : Command} {level : Level} {args : List Bytes}
    {main main' : MainConf} {loc loc' : LocConf}
    (h : command.call level args main loc = ok (main', loc')) :
    Effect main loc command args main' loc' := by
  unfold call at h
  obtain ⟨_, _, h⟩ := bind_eq_ok.mp h
  obtain ⟨_, htakes, h⟩ := bind_eq_ok.mp h
  have htakes := exitIf_eq_ok.mp htakes
  cases command with
  | verify =>
      have hlen : args.length = 1 := by simpa [takes] using htakes
      obtain ⟨arg, rfl⟩ := List.length_eq_one_iff.mp hlen
      obtain ⟨mode, hunset, hmode, rfl, rfl⟩ := setMode_eq_ok h
      exact .verify hunset hmode
  | credential =>
      obtain ⟨_, hset, heq⟩ := map_eq_ok.mp h
      obtain ⟨rfl, rfl⟩ := Prod.mk.inj heq
      obtain ⟨directive, hreads, hfresh, rfl⟩ := setCredential_eq_ok hset
      exact .credential hreads hfresh
  | clockSkew =>
      obtain ⟨_, hset, heq⟩ := map_eq_ok.mp h
      obtain ⟨rfl, rfl⟩ := Prod.mk.inj heq
      exact .setting (by simp) (by simp) (setMainDuration_sameRest (fun _ => ⟨rfl, rfl, rfl⟩) hset)
  | defaultMaxExpires =>
      obtain ⟨_, hset, heq⟩ := map_eq_ok.mp h
      obtain ⟨rfl, rfl⟩ := Prod.mk.inj heq
      exact .setting (by simp) (by simp) (setMainDuration_sameRest (fun _ => ⟨rfl, rfl, rfl⟩) hset)
  | methods =>
      obtain ⟨_, hset, heq⟩ := map_eq_ok.mp h
      obtain ⟨rfl, rfl⟩ := Prod.mk.inj heq
      exact .setting (by simp) (by simp) (setMethods_sameRest hset)
  | logDenies =>
      obtain ⟨_, hset, heq⟩ := map_eq_ok.mp h
      obtain ⟨rfl, rfl⟩ := Prod.mk.inj heq
      exact .setting (by simp) (by simp) (setMainFlag_sameRest (fun _ => ⟨rfl, rfl, rfl⟩) hset)
  | logAll =>
      obtain ⟨_, hset, heq⟩ := map_eq_ok.mp h
      obtain ⟨rfl, rfl⟩ := Prod.mk.inj heq
      exact .setting (by simp) (by simp) (setMainFlag_sameRest (fun _ => ⟨rfl, rfl, rfl⟩) hset)

/-! ## A block -/

section Parse

variable {level : Level} {main main' : MainConf} {loc loc' : LocConf} {locations : Locations}

theorem parse_directive_eq_ok {command : Command} {args : List Bytes} {rest : Block}
    {r : MainConf × LocConf × Locations}
    (h : (Block.directive command args rest).parse level main loc = ok r) :
    ∃ main₁ loc₁, Effect main loc command args main₁ loc₁
      ∧ rest.parse level main₁ loc₁ = ok r := by
  obtain ⟨⟨main₁, loc₁⟩, hcall, h⟩ := bind_eq_ok.mp h
  exact ⟨main₁, loc₁, Command.call_eq_ok hcall, h⟩

theorem parse_block_eq_ok {inner rest : Block}
    (h : (Block.block inner rest).parse level main loc = ok (main', loc', locations)) :
    ∃ main₁ innerLoc nested siblings,
      inner.parse .nested main .default = ok (main₁, innerLoc, nested)
        ∧ rest.parse level main₁ loc = ok (main', loc', siblings)
        ∧ locations = .block innerLoc nested siblings := by
  obtain ⟨⟨main₁, innerLoc, nested⟩, hinner, h⟩ := bind_eq_ok.mp h
  obtain ⟨⟨main₂, loc₂, siblings⟩, hrest, h⟩ := bind_eq_ok.mp h
  obtain ⟨rfl, hpair⟩ := Prod.mk.inj (Outcome.ok.inj h)
  obtain ⟨rfl, rfl⟩ := Prod.mk.inj hpair
  exact ⟨main₁, innerLoc, nested, siblings, hinner, hrest, rfl⟩

/--
**The rule for blocks.** What every directive keeps, a block keeps.
-/
theorem parse_invariant {P : MainConf → Prop}
    (hstep : ∀ {main main' : MainConf} {loc loc' : LocConf} {command : Command}
      {args : List Bytes}, Effect main loc command args main' loc' → P main → P main')
    {b : Block} (h : b.parse level main loc = ok (main', loc', locations)) (hP : P main) :
    P main' := by
  induction b generalizing level main loc main' loc' locations with
  | done =>
      obtain ⟨rfl, _⟩ := Prod.mk.inj (Outcome.ok.inj h)
      exact hP
  | directive command args rest ih =>
      obtain ⟨_, _, heffect, hrest⟩ := parse_directive_eq_ok h
      exact ih hrest (hstep heffect hP)
  | block inner rest ihinner ihrest =>
      obtain ⟨_, _, _, _, hinner, hrest, _⟩ := parse_block_eq_ok h
      exact ihrest hrest (ihinner hinner hP)

theorem Effect.enabledAnywhere {command : Command} {args : List Bytes}
    (h : Effect main loc command args main' loc') (hmain : main.enabledAnywhere = true) :
    main'.enabledAnywhere = true := by
  cases h with
  | verify _ _ =>
      split
      · rfl
      · exact hmain
  | credential _ _ => exact hmain
  | setting _ _ hsame => exact hsame.enabledAnywhere.trans hmain

/-- Once set the flag stays set. -/
theorem parse_enabledAnywhere {b : Block}
    (h : b.parse level main loc = ok (main', loc', locations))
    (hmain : main.enabledAnywhere = true) : main'.enabledAnywhere = true :=
  parse_invariant (P := fun main => main.enabledAnywhere = true) Effect.enabledAnywhere h hmain

theorem Effect.distinct {command : Command} {args : List Bytes}
    (h : Effect main loc command args main' loc')
    (hmain : (main.credentials.map (·.accessKey)).Nodup) :
    (main'.credentials.map (·.accessKey)).Nodup := by
  cases h with
  | verify _ _ =>
      split
      · exact hmain
      · exact hmain
  | @credential _ directive _ hfresh =>
      rw [List.map_append, List.nodup_append]
      refine ⟨hmain, List.nodup_singleton _, ?_⟩
      intro key hkey key' hkey'
      obtain ⟨other, hother, rfl⟩ := List.mem_map.mp hkey
      rw [List.map_singleton, List.mem_singleton] at hkey'
      rw [hkey']
      exact hfresh other hother
  | setting _ _ hsame => rw [hsame.credentials]; exact hmain

/-- Two credentials never have one access key. -/
theorem parse_distinct {b : Block} (h : b.parse level main loc = ok (main', loc', locations))
    (hmain : (main.credentials.map (·.accessKey)).Nodup) :
    (main'.credentials.map (·.accessKey)).Nodup :=
  parse_invariant (P := fun main => (main.credentials.map (·.accessKey)).Nodup)
    Effect.distinct h hmain

/-- **The credentials** are those of the directives, in file order. -/
theorem parse_credentials {b : Block}
    (h : b.parse level main loc = ok (main', loc', locations)) :
    ∃ directives, main'.credentials = main.credentials ++ directives
      ∧ List.Forall₂ ReadsCredential b.credentialArgs directives := by
  induction b generalizing level main loc main' loc' locations with
  | done =>
      obtain ⟨rfl, _⟩ := Prod.mk.inj (Outcome.ok.inj h)
      exact ⟨[], (List.append_nil _).symm, .nil⟩
  | directive command args rest ih =>
      obtain ⟨main₁, loc₁, heffect, hrest⟩ := parse_directive_eq_ok h
      obtain ⟨directives, hdirectives, hreads⟩ := ih hrest
      cases heffect with
      | verify _ _ =>
          refine ⟨directives, ?_, hreads⟩
          rw [hdirectives]
          split
          · rfl
          · rfl
      | @credential _ directive hread _ =>
          exact ⟨directive :: directives, by rw [hdirectives, List.append_assoc]; rfl,
            .cons hread hreads⟩
      | setting hverify hcredential hsame =>
          have hargs : (Block.directive command args rest).credentialArgs
              = rest.credentialArgs := by
            cases command with
            | credential => exact absurd rfl hcredential
            | _ => rfl
          exact ⟨directives, by rw [hdirectives, hsame.credentials], hargs ▸ hreads⟩
  | block inner rest ihinner ihrest =>
      obtain ⟨_, _, _, _, hinner, hrest, _⟩ := parse_block_eq_ok h
      obtain ⟨ds₁, h₁, hreads₁⟩ := ihinner hinner
      obtain ⟨ds₂, h₂, hreads₂⟩ := ihrest hrest
      exact ⟨ds₁ ++ ds₂, by rw [h₂, h₁, List.append_assoc], List.rel_append hreads₁ hreads₂⟩

theorem modeOfText_ne_unset {arg : Bytes} {mode : Mode} (h : modeOfText arg = some mode) :
    mode ≠ .unset := by
  unfold modeOfText at h
  rintro rfl
  split at h
  · exact absurd (Option.some.inj h) (by simp)
  · split at h
    · exact absurd (Option.some.inj h) (by simp)
    · split at h
      · exact absurd (Option.some.inj h) (by simp)
      · exact absurd h (by simp)

/-- **The mode of a block** is the one it states; it states one at most. -/
theorem parse_mode {b : Block} (h : b.parse level main loc = ok (main', loc', locations)) :
    (b.ownMode = none ∧ loc' = loc)
      ∨ ∃ mode, b.ownMode = some mode ∧ mode ≠ .unset ∧ loc.mode = .unset ∧ loc' = ⟨mode⟩
        ∧ (mode.verifies = true → main'.enabledAnywhere = true) := by
  induction b generalizing level main loc main' loc' locations with
  | done =>
      obtain ⟨_, h⟩ := Prod.mk.inj (Outcome.ok.inj h)
      exact Or.inl ⟨rfl, (Prod.mk.inj h).1.symm⟩
  | directive command args rest ih =>
      obtain ⟨main₁, loc₁, heffect, hrest⟩ := parse_directive_eq_ok h
      cases heffect with
      | @verify arg mode hunset hmode =>
          have hne := modeOfText_ne_unset hmode
          rcases ih hrest with ⟨_, hloc⟩ | ⟨_, _, _, hunset', _⟩
          · refine Or.inr ⟨mode, hmode, hne, hunset, hloc, ?_⟩
            intro hverifies
            refine parse_enabledAnywhere hrest ?_
            rw [if_pos hverifies]
          · -- a second directive would find the mode set
            exact absurd hunset' hne
      | credential _ _ => exact ih hrest
      | setting hverify _ _ =>
          cases command with
          | verify => exact absurd rfl hverify
          | _ => exact ih hrest
  | block inner rest _ ihrest =>
      obtain ⟨_, _, _, _, _, hrest, _⟩ := parse_block_eq_ok h
      exact ihrest hrest

/-! ## Nested blocks -/

/-- **Each nested block is parsed** with a fresh configuration, and what it sets in the
configuration of `http` stays set. -/
theorem parse_nth {b : Block} (h : b.parse level main loc = ok (main', loc', locations))
    (n : Nat) :
    (b.nth n = none ∧ locations.nth n = none)
      ∨ ∃ inner main₁ main₂ innerLoc nested, b.nth n = some inner
        ∧ locations.nth n = some (innerLoc, nested)
        ∧ inner.parse .nested main₁ .default = ok (main₂, innerLoc, nested)
        ∧ (main₂.enabledAnywhere = true → main'.enabledAnywhere = true) := by
  induction b generalizing level main loc main' loc' locations n with
  | done =>
      obtain ⟨_, h⟩ := Prod.mk.inj (Outcome.ok.inj h)
      obtain ⟨_, rfl⟩ := Prod.mk.inj h
      exact Or.inl ⟨rfl, rfl⟩
  | directive command args rest ih =>
      obtain ⟨_, _, _, hrest⟩ := parse_directive_eq_ok h
      exact ih hrest n
  | block inner rest _ ihrest =>
      obtain ⟨main₁, innerLoc, nested, siblings, hinner, hrest, rfl⟩ := parse_block_eq_ok h
      cases n with
      | zero =>
          exact Or.inr ⟨inner, main, main₁, innerLoc, nested, rfl, rfl, hinner,
            parse_enabledAnywhere hrest⟩
      | succ n => exact ihrest hrest n

theorem nth_merge (prev : LocConf) (locations : Locations) (n : Nat) :
    (locations.merge prev).nth n
      = (locations.nth n).map fun (loc, inner) => (loc.merge prev, inner.merge (loc.merge prev)) := by
  induction locations generalizing n with
  | done => rfl
  | block loc inner rest _ ih =>
      cases n with
      | zero => rfl
      | succ n => exact ih n

/-- The mode that blocks without one of their own get from `outer`. -/
def Mode.orOff (outer : Mode) : Mode := Mode.unset.merge outer

theorem Mode.merge_orOff {mode : Option Mode} (h : mode ≠ some .unset) (outer : Mode) :
    (mode.getD .unset).merge outer = mode.getD outer.orOff := by
  cases mode with
  | none => rfl
  | some mode =>
      cases mode with
      | unset => exact absurd rfl h
      | off => rfl
      | on => rfl
      | shadow => rfl

theorem Mode.orOff_orOff (outer : Mode) : outer.orOff.orOff = outer.orOff := by
  cases outer <;> rfl

theorem Mode.orOff_of_ne {mode : Mode} (h : mode ≠ .unset) : mode.orOff = mode := by
  cases mode with
  | unset => exact absurd rfl h
  | off => rfl
  | on => rfl
  | shadow => rfl

/-- What `parse_mode` says of a fresh configuration. -/
theorem parse_default_mode {b : Block}
    (h : b.parse level main .default = ok (main', loc', locations)) :
    loc' = ⟨b.ownMode.getD .unset⟩ ∧ b.ownMode ≠ some .unset := by
  rcases parse_mode h with ⟨hnone, hloc⟩ | ⟨mode, hsome, hne, _, hloc, _⟩
  · rw [hnone]
    exact ⟨hloc, by simp⟩
  · rw [hsome]
    exact ⟨hloc, fun hc => hne (Option.some.inj hc)⟩

/-- The mode at the innermost of these levels, inside a block of mode `outer`. -/
def inheritedMode (outer : Mode) (levels : List Block) : Mode :=
  (levels.findSome? Block.ownMode).getD outer.orOff

theorem inheritedMode_singleton (outer : Mode) (inner : Block) :
    inheritedMode outer [inner] = inner.ownMode.getD outer.orOff := by
  unfold inheritedMode
  rw [List.findSome?_singleton]

theorem Mode.orOff_getD {mode : Option Mode} (h : mode ≠ some .unset) (outer : Mode) :
    (mode.getD outer.orOff).orOff = mode.getD outer.orOff := by
  cases mode with
  | none => exact Mode.orOff_orOff outer
  | some mode => exact Mode.orOff_of_ne fun hc => h (congrArg some hc)

/-- An outermost level hands its own mode on. -/
theorem inheritedMode_append {inner : Block} (h : inner.ownMode ≠ some .unset) (outer : Mode)
    (levels : List Block) :
    inheritedMode outer (levels ++ [inner])
      = inheritedMode (inner.ownMode.getD outer.orOff) levels := by
  unfold inheritedMode
  rw [List.findSome?_append, List.findSome?_singleton, Mode.orOff_getD h]
  cases levels.findSome? Block.ownMode with
  | none => rfl
  | some mode => rfl

/-- **The merged mode at a path** is that of the nearest level to state one, and otherwise
what is inherited. -/
theorem find_merge {b : Block} (h : b.parse level main loc = ok (main', loc', locations))
    (outer : Mode) (n : Nat) (path : List Nat) :
    (locations.merge ⟨outer⟩).find (n :: path)
      = ((b.nth n).bind fun inner => inner.levels path).map fun levels =>
          ⟨inheritedMode outer levels⟩ := by
  induction path generalizing b level main loc main' loc' locations outer n with
  | nil =>
      rcases parse_nth h n with ⟨hb, hl⟩ | ⟨inner, _, _, innerLoc, nested, hb, hl, hinner, _⟩
      · rw [Locations.find, nth_merge, hl, hb]
        rfl
      · obtain ⟨rfl, hne⟩ := parse_default_mode hinner
        rw [Locations.find, nth_merge, hl, hb]
        show some (LocConf.mk ((inner.ownMode.getD .unset).merge outer))
          = some ⟨inheritedMode outer [inner]⟩
        rw [Mode.merge_orOff hne, inheritedMode_singleton]
  | cons k path ih =>
      rcases parse_nth h n with ⟨hb, hl⟩ | ⟨inner, _, _, innerLoc, nested, hb, hl, hinner, _⟩
      · rw [Locations.find, nth_merge, hl, hb]
        rfl
      · obtain ⟨rfl, hne⟩ := parse_default_mode hinner
        rw [Locations.find, nth_merge, hl, hb]
        show (nested.merge ⟨(inner.ownMode.getD .unset).merge outer⟩).find (k :: path)
          = (inner.levels (k :: path)).map _
        rw [ih hinner, Mode.merge_orOff hne, Block.levels]
        cases inner.nth k with
        | none => rfl
        | some inner' =>
            show (inner'.levels path).map _ = ((inner'.levels path).map (· ++ [inner])).map _
            rw [Option.map_map]
            refine congrArg (Option.map · (inner'.levels path)) (funext fun levels => ?_)
            exact congrArg LocConf.mk (inheritedMode_append hne outer levels).symm

/-- A level that verifies has set `enabled_anywhere`. -/
theorem enabledAnywhere_of_level {b : Block} {path : List Nat} {levels : List Block}
    (h : b.parse level main loc = ok (main', loc', locations)) (hlevels : b.levels path = some levels)
    {inner : Block} (hmem : inner ∈ levels) {mode : Mode} (hmode : inner.ownMode = some mode)
    (hverifies : mode.verifies = true) : main'.enabledAnywhere = true := by
  have hown : ∀ {level main loc main' loc' locations},
      inner.parse level main loc = ok (main', loc', locations) → main'.enabledAnywhere = true := by
    intro _ _ _ _ _ _ hparse
    rcases parse_mode hparse with ⟨hnone, _⟩ | ⟨mode', hsome, _, _, _, hset⟩
    · rw [hnone] at hmode
      exact absurd hmode (by simp)
    · rw [hsome] at hmode
      rw [Option.some.inj hmode] at hset
      exact hset hverifies
  induction path generalizing b level main loc main' loc' locations levels with
  | nil =>
      rw [Block.levels, Option.some.injEq] at hlevels
      rw [← hlevels, List.mem_singleton] at hmem
      exact hown (hmem ▸ h)
  | cons n path ih =>
      rw [Block.levels] at hlevels
      rcases parse_nth h n with ⟨hb, _⟩ | ⟨child, _, _, _, _, hb, _, hchild, hset⟩
      · rw [hb] at hlevels
        exact absurd hlevels (by simp)
      · rw [hb, Option.bind_some, Option.map_eq_some_iff] at hlevels
        obtain ⟨levels', hlevels', rfl⟩ := hlevels
        rcases List.mem_append.mp hmem with hmem | hmem
        · exact hset (ih hchild hlevels' hmem)
        · exact hown (List.mem_singleton.mp hmem ▸ h)

end Parse

end SigV4
