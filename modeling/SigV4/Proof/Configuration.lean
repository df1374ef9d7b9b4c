import SigV4.Proof.HttpBlock
import SigV4.Property.Arguments
import SigV4.Spec.Configuration

/-!
# What the handlers of the directives accept

`Command.call_eq_ok` says what a directive can do. Here is the other half: when it does it, each
handler as an equivalence, and from the handlers the whole block. What a block adds to the
configuration is `Block.Adds`; one directive adds its own part, and parts add up (`fills_append`).
-/

namespace SigV4

open Outcome Spec Slots CredentialDirective

variable {main main₀ main₁ main' : MainConf} {loc loc₀ loc' : LocConf} {level : Level}
  {command : Command} {args : List Bytes} {arg : Bytes}

/-! ## Arguments -/

theorem mapM_fromUtf8_iff {texts : List Str} :
    args.mapM Str.fromUtf8 = some texts ↔ args = texts.map Str.bytes := by
  induction args generalizing texts with
  | nil =>
      cases texts with
      | nil => exact iff_of_true rfl rfl
      | cons _ _ => exact iff_of_false (by simp) (by simp)
  | cons arg args ih =>
      rw [List.mapM_cons]
      cases texts with
      | nil =>
          refine iff_of_false (fun h => ?_) (by simp)
          obtain ⟨_, _, h⟩ := Option.bind_eq_some_iff.mp h
          obtain ⟨_, _, h⟩ := Option.bind_eq_some_iff.mp h
          cases h
      | cons text texts =>
          rw [List.map_cons, List.cons.injEq, ← ih, eq_comm (a := arg),
            ← Str.fromUtf8_eq_some]
          refine ⟨fun h => ?_, ?_⟩
          · obtain ⟨t, ht, h⟩ := Option.bind_eq_some_iff.mp h
            obtain ⟨ts, hts, h⟩ := Option.bind_eq_some_iff.mp h
            obtain ⟨rfl, rfl⟩ := List.cons.inj (Option.some.inj h)
            exact ⟨ht, hts⟩
          · rintro ⟨ht, hts⟩
            rw [ht, hts]
            rfl

theorem directiveArgs_iff {texts : List Str} :
    directiveArgs args = ok texts ↔ args = texts.map Str.bytes :=
  directiveArgs_eq_ok.trans mapM_fromUtf8_iff

/-- The one argument of a directive, as a text. -/
theorem firstArg_iff {text : Str} :
    (directiveArgs [arg] >>= firstArg) = ok text ↔ arg = text.bytes := by
  rw [bind_eq_ok]
  refine ⟨?_, ?_⟩
  · rintro ⟨texts, htexts, hfirst⟩
    have htexts := directiveArgs_iff.mp htexts
    cases texts with
    | nil => cases htexts
    | cons t ts =>
        rw [← Outcome.ok.inj hfirst]
        exact (List.cons.inj htexts).1
  · rintro rfl
    exact ⟨[text], directiveArgs_iff.mpr rfl, rfl⟩

theorem modeParse_eq_ok {s : Str} {mode : Mode} :
    Mode.parse s = ok mode ↔ modeOfText s.bytes = some mode := by
  refine ⟨modeOfText_of_parse, fun h => ?_⟩
  -- what is not parsed is no mode
  cases hparse : Mode.parse s with
  | ok mode' =>
      rw [modeOfText_of_parse hparse] at h
      rw [Option.some.inj h]
  | exit e =>
      exfalso
      unfold modeOfText at h
      unfold Mode.parse at hparse
      simp only [beq_iff_eq, Str.ext_iff, Str.lit] at hparse
      split at h
      · rename_i hon
        rw [if_pos hon] at hparse
        cases hparse
      · rename_i hon
        rw [if_neg hon] at hparse
        split at h
        · rename_i hoff
          rw [if_pos hoff] at hparse
          cases hparse
        · rename_i hoff
          rw [if_neg hoff] at hparse
          split at h
          · rename_i hshadow
            rw [if_pos hshadow] at hparse
            cases hparse
          · cases h
  | panic p =>
      exfalso
      unfold Mode.parse at hparse
      split at hparse
      · cases hparse
      · split at hparse
        · cases hparse
        · split at hparse <;> cases hparse

/-! ## Slots -/

theorem MainConf.supportedMethods_of_slot (h : main.slot .methods = main'.slot .methods) :
    main.supportedMethods = main'.supportedMethods := by
  simp only [slot] at h
  split at h
  · rename_i hnil
    split at h
    · rename_i hnil'
      rw [hnil, hnil']
    · cases h
  · split at h
    · cases h
    · exact Value.methods.inj (Option.some.inj h)

/-- A configuration is told by what it holds. -/
theorem MainConf.ext_of_slots (hslots : ∀ c, main.slot c = main'.slot c)
    (hcredentials : main.credentials = main'.credentials)
    (henabled : main.enabledAnywhere = main'.enabledAnywhere)
    (hverifier : main.verifier = main'.verifier) : main = main' := by
  have hclock := hslots .clockSkew
  have hexpires := hslots .defaultMaxExpires
  have hdenies := hslots .logDenies
  have hall := hslots .logAll
  have hmethods := supportedMethods_of_slot (hslots .methods)
  have hduration : ∀ {x y : Option Duration}, x.map Value.duration = y.map Value.duration → x = y :=
    fun h => Option.map_injective (fun _ _ => Value.duration.inj) h
  have hflag : ∀ {x y : Option Bool}, x.map Value.flag = y.map Value.flag → x = y :=
    fun h => Option.map_injective (fun _ _ => Value.flag.inj) h
  cases main
  cases main'
  rw [MainConf.mk.injEq]
  exact ⟨hduration hclock, hduration hexpires, hmethods, hflag hdenies, hflag hall, hcredentials,
    henabled, hverifier⟩

/-- `main'` holds the value where `main` holds none, and is the same elsewhere. -/
structure Puts (main : MainConf) (command : Command) (value : Value) (main' : MainConf) :
    Prop where
  empty : main.slot command = none
  slot : main'.slot command = some value
  others : ∀ c, c ≠ command → main'.slot c = main.slot c
  rest : SameRest main main'

theorem Puts.unique {value : Value} (h : Puts main command value main')
    (h' : Puts main command value main₁) : main' = main₁ := by
  refine MainConf.ext_of_slots (fun c => ?_) ?_ ?_ ?_
  · by_cases hc : c = command
    · rw [hc, h.slot, h'.slot]
    · rw [h.others c hc, h'.others c hc]
  · rw [h.rest.credentials, h'.rest.credentials]
  · rw [h.rest.enabledAnywhere, h'.rest.enabledAnywhere]
  · rw [h.rest.verifier, h'.rest.verifier]

/-! ## Handlers -/

/-- **A handler that sets a slot once.** `parse` reads the argument, `Says` is what it reads. -/
theorem setOnce_iff {β : Type} {parse : Str → Outcome DirectiveError β} {Says : Str → β → Prop}
    {field : MainConf → Option β} {fill : MainConf → β → MainConf}
    (hparse : ∀ {text b}, parse text = ok b ↔ Says text b) :
    guardConf (if (field main).isSome then exit .duplicate
      else do
        let args ← directiveArgs [arg]
        let arg ← firstArg args
        let b ← (parse arg).mapExit DirectiveError.toConfError
        ok (fill main b)) = ok main'
      ↔ field main = none ∧ ∃ text b, arg = text.bytes ∧ Says text b ∧ main' = fill main b := by
  rw [guardConf_eq_ok]
  cases hfield : field main with
  | some _ => exact iff_of_false (by simp) (by simp)
  | none =>
      rw [Option.isSome_none, if_neg Bool.false_ne_true, ← bind_assoc, bind_eq_ok]
      refine ⟨?_, ?_⟩
      · rintro ⟨text, htext, h⟩
        obtain ⟨b, hb, h⟩ := bind_eq_ok.mp h
        exact ⟨rfl, text, b, firstArg_iff.mp htext, hparse.mp (mapExit_eq_ok.mp hb),
          (Outcome.ok.inj h).symm⟩
      · rintro ⟨_, text, b, htext, hsaid, rfl⟩
        refine ⟨text, firstArg_iff.mpr htext, ?_⟩
        rw [mapExit_eq_ok.mpr (hparse.mpr hsaid), ok_bind]

theorem setMainDuration_iff {field : MainConf → Option Duration}
    {fill : MainConf → Duration → MainConf} :
    setMainDuration field fill [arg] main = ok main' ↔ field main = none ∧
      ∃ text d, arg = text.bytes ∧ IsDuration text d ∧ main' = fill main d :=
  setOnce_iff parseDuration_eq_ok

theorem setMainFlag_iff {field : MainConf → Option Bool} {fill : MainConf → Bool → MainConf} :
    setMainFlag field fill [arg] main = ok main' ↔ field main = none ∧
      ∃ text b, arg = text.bytes ∧ IsOnOff text b ∧ main' = fill main b :=
  setOnce_iff parseOnOff_eq_ok

theorem setMode_iff :
    setMode [arg] main loc = ok (main', loc') ↔ loc.mode = .unset ∧ ∃ mode,
      modeOfText arg = some mode ∧ loc' = ⟨mode⟩
        ∧ main' = (if mode.verifies then { main with enabledAnywhere := true } else main) := by
  refine ⟨fun h => ?_, ?_⟩
  · obtain ⟨mode, hunset, hmode, hmain, hloc⟩ := setMode_eq_ok h
    exact ⟨hunset, mode, hmode, hloc, hmain⟩
  · rintro ⟨hunset, mode, hmode, rfl, rfl⟩
    -- a mode is written in ASCII
    have hutf8 : ∃ text : Str, arg = text.bytes := by
      unfold modeOfText at hmode
      split at hmode
      · rename_i h
        exact ⟨.lit "on", h⟩
      · split at hmode
        · rename_i h
          exact ⟨.lit "off", h⟩
        · split at hmode
          · rename_i h
            exact ⟨.lit "shadow", h⟩
          · cases hmode
    obtain ⟨text, rfl⟩ := hutf8
    unfold setMode
    rw [guardConf_eq_ok, hunset, if_neg (by decide), ← bind_assoc, firstArg_iff.mpr rfl, ok_bind,
      mapExit_eq_ok.mpr (modeParse_eq_ok.mpr hmode), ok_bind]

theorem checkMethod_isOk_iff (u : Unit) (m : Str) :
    (∃ u', checkMethod u m = ok u') ↔ IsMethod m := by
  unfold checkMethod IsMethod
  simp only [exitIf_eq_ok, Bool.not_eq_false', Bool.or_eq_true, beq_iff_eq, exists_const]

theorem setMethods_iff :
    setMethods args main = ok main' ↔ main.supportedMethods = [] ∧ ∃ texts : List Str,
      args = texts.map Str.bytes ∧ (∀ m ∈ texts, IsMethod m)
        ∧ main' = { main with supportedMethods := texts } := by
  unfold setMethods
  rw [guardConf_eq_ok]
  cases hfield : main.supportedMethods with
  | cons _ _ => exact iff_of_false (by simp) (by simp)
  | nil =>
      rw [List.isEmpty_nil, if_neg (by decide), bind_eq_ok]
      refine ⟨?_, ?_⟩
      · rintro ⟨texts, htexts, h⟩
        obtain ⟨u, hu, h⟩ := bind_eq_ok.mp h
        exact ⟨rfl, texts, directiveArgs_iff.mp htexts,
          (foldlM_isOk_iff checkMethod_isOk_iff texts ()).mp ⟨u, hu⟩,
          (Outcome.ok.inj h).symm⟩
      · rintro ⟨_, texts, htexts, hmethods, rfl⟩
        obtain ⟨u, hu⟩ :=
          (foldlM_isOk_iff checkMethod_isOk_iff texts ()).mpr hmethods
        exact ⟨texts, directiveArgs_iff.mpr htexts, by rw [hu, ok_bind]⟩

theorem setCredential_iff :
    setCredential args main = ok main' ↔ ∃ d, StatesCredential args d
      ∧ (∀ other ∈ main.credentials, other.accessKey ≠ d.accessKey)
      ∧ main' = { main with credentials := main.credentials ++ [d] } := by
  refine ⟨fun h => ?_, ?_⟩
  · obtain ⟨d, ⟨texts, htexts, hparse⟩, hfresh, hmain⟩ := setCredential_eq_ok h
    exact ⟨d, ⟨texts, mapM_fromUtf8_iff.mp htexts, parse_eq_ok_iff.mp hparse⟩, hfresh, hmain⟩
  · rintro ⟨d, ⟨texts, htexts, hdirects⟩, hfresh, rfl⟩
    have hdup : main.credentials.any (·.accessKey == d.accessKey) = false := by
      rw [List.any_eq_false]
      exact fun other hother h => hfresh other hother (beq_iff_eq.mp h)
    unfold setCredential
    rw [guardConf_eq_ok, directiveArgs_iff.mpr htexts, ok_bind,
      mapExit_eq_ok.mpr (parse_eq_ok_iff.mpr hdirects), ok_bind, hdup, if_neg Bool.false_ne_true]

/-! ## One directive -/

theorem call_iff {r : MainConf × LocConf} : command.call level args main loc = ok r
      ↔ command.allowedAt level = true ∧ command.takes args = true
        ∧ command.set args main loc = ok r := by
  unfold Command.call
  rw [bind_eq_ok]
  simp only [exitIf_eq_ok, Bool.not_eq_false', exists_const, bind_eq_ok]

/-- **What a directive adds**, and when it is taken. -/
inductive Does (level : Level) (main : MainConf) (loc : LocConf) :
    Command → List Bytes → MainConf → LocConf → Prop where
  | verify {args : List Bytes} {mode : Mode} : loc.mode = .unset → StatesMode args mode →
      Does level main loc .verify args
        (if mode.verifies then { main with enabledAnywhere := true } else main) ⟨mode⟩
  | credential {args : List Bytes} {d : CredentialDirective} : level = .http →
      StatesCredential args d → (∀ other ∈ main.credentials, other.accessKey ≠ d.accessKey) →
      Does level main loc .credential args { main with credentials := main.credentials ++ [d] } loc
  | setting {command : Command} {args : List Bytes} {value : Value} {main' : MainConf} :
      level = .http → command.isSetting = true → Sets command args value →
      Puts main command value main' → Does level main loc command args main' loc

/-- The configuration of the block is not touched. -/
theorem map_pair_iff {x : Outcome ConfError MainConf} :
    (·, loc) <$> x = ok (main', loc') ↔ loc' = loc ∧ x = ok main' := by
  rw [map_eq_ok]
  refine ⟨?_, ?_⟩
  · rintro ⟨m, hm, h⟩
    obtain ⟨rfl, rfl⟩ := Prod.mk.inj h
    exact ⟨rfl, hm⟩
  · rintro ⟨rfl, h⟩
    exact ⟨_, h, rfl⟩

/-- A setting of one argument: `Says` is what it says, and `fill` writes it. -/
theorem set_once_iff {β : Type} (Says : Str → β → Prop) (value : β → Value)
    (fill : MainConf → β → MainConf) (htakes : command.takes args = (args.length == 1))
    (hset : ∀ arg, command.set [arg] main loc = ok (main', loc') ↔
      loc' = loc ∧ main.slot command = none ∧
        ∃ text b, arg = text.bytes ∧ Says text b ∧ main' = fill main b)
    (hsets : ∀ v, Sets command args v ↔ ∃ text b, args = [text.bytes] ∧ Says text b ∧ v = value b)
    (hfill : ∀ b, main.slot command = none → Puts main command (value b) (fill main b)) :
    (command.takes args = true ∧ command.set args main loc = ok (main', loc'))
      ↔ loc' = loc ∧ ∃ v, Sets command args v ∧ Puts main command v main' := by
  rw [htakes, beq_iff_eq, List.length_eq_one_iff]
  refine ⟨?_, ?_⟩
  · rintro ⟨⟨arg, rfl⟩, h⟩
    obtain ⟨hloc, hnone, text, b, rfl, hsaid, rfl⟩ := (hset arg).mp h
    exact ⟨hloc, value b, (hsets _).mpr ⟨text, b, rfl, hsaid, rfl⟩, hfill b hnone⟩
  · rintro ⟨hloc, v, hv, hputs⟩
    obtain ⟨text, b, rfl, hsaid, rfl⟩ := (hsets v).mp hv
    exact ⟨⟨_, rfl⟩, (hset _).mpr
      ⟨hloc, hputs.empty, text, b, rfl, hsaid, hputs.unique (hfill b hputs.empty)⟩⟩

theorem sets_duration_iff {v : Value} (h : command = .clockSkew ∨ command = .defaultMaxExpires) :
    Sets command args v ↔ ∃ text d, args = [text.bytes] ∧ IsDuration text d ∧ v = .duration d := by
  refine ⟨fun hsets => ?_, ?_⟩
  · cases hsets with
    | clockSkew hd => exact ⟨_, _, rfl, hd, rfl⟩
    | defaultMaxExpires hd => exact ⟨_, _, rfl, hd, rfl⟩
    | _ => rcases h with h | h <;> cases h
  · rintro ⟨text, d, rfl, hd, rfl⟩
    rcases h with rfl | rfl
    · exact .clockSkew hd
    · exact .defaultMaxExpires hd

theorem sets_flag_iff {v : Value} (h : command = .logDenies ∨ command = .logAll) :
    Sets command args v ↔ ∃ text b, args = [text.bytes] ∧ IsOnOff text b ∧ v = .flag b := by
  refine ⟨fun hsets => ?_, ?_⟩
  · cases hsets with
    | logDenies hb => exact ⟨_, _, rfl, hb, rfl⟩
    | logAll hb => exact ⟨_, _, rfl, hb, rfl⟩
    | _ => rcases h with h | h <;> cases h
  · rintro ⟨text, b, rfl, hb, rfl⟩
    rcases h with rfl | rfl
    · exact .logDenies hb
    · exact .logAll hb

theorem slot_methods_eq_none : main.slot .methods = none ↔ main.supportedMethods = [] := by
  show (if main.supportedMethods = [] then none else some _) = none ↔ _
  by_cases h : main.supportedMethods = []
  · rw [if_pos h]
    exact iff_of_true rfl h
  · rw [if_neg h]
    exact iff_of_false (Option.some_ne_none _) h

theorem puts_methods {texts : List Str} (hne : texts ≠ []) (hempty : main.slot .methods = none) :
    Puts main .methods (.methods texts) { main with supportedMethods := texts } := by
  refine ⟨hempty, if_neg hne, fun c hc => ?_, rfl, rfl, rfl⟩
  cases c <;> first | rfl | exact absurd rfl hc

theorem set_methods_iff :
    (Command.takes .methods args = true ∧ Command.set .methods args main loc = ok (main', loc'))
      ↔ loc' = loc ∧ ∃ v, Sets .methods args v ∧ Puts main .methods v main' := by
  have hset : Command.set .methods args main loc = ok (main', loc')
      ↔ loc' = loc ∧ setMethods args main = ok main' := map_pair_iff
  have htakes : Command.takes .methods args = true ↔ args ≠ [] := by
    cases args with
    | nil => exact iff_of_false (by decide) fun h => h rfl
    | cons _ _ => exact iff_of_true rfl (by simp)
  rw [hset, htakes, setMethods_iff, ← slot_methods_eq_none]
  refine ⟨?_, ?_⟩
  · rintro ⟨hne, hloc, hempty, texts, rfl, hmethods, rfl⟩
    have hne : texts ≠ [] := fun h => hne (by rw [h]; rfl)
    exact ⟨hloc, .methods texts, .methods hne hmethods, puts_methods hne hempty⟩
  · rintro ⟨hloc, v, hv, hputs⟩
    cases hv with
    | @methods texts hne hmethods =>
        exact ⟨fun h => hne (List.map_eq_nil_iff.mp h), hloc, hputs.empty, texts, rfl, hmethods,
          hputs.unique (puts_methods hne hputs.empty)⟩

/-- **What a setting adds** is its value, in an empty slot. -/
theorem set_setting_iff (h : command.isSetting = true) :
    (command.takes args = true ∧ command.set args main loc = ok (main', loc'))
      ↔ loc' = loc ∧ ∃ v, Sets command args v ∧ Puts main command v main' := by
  have hnone : ∀ {β : Type} {f : β → Value} {x : Option β}, x.map f = none ↔ x = none :=
    Option.map_eq_none_iff
  cases command with
  | verify => cases h
  | credential => cases h
  | clockSkew =>
      refine set_once_iff IsDuration .duration (fun main d => { main with clockSkew := some d }) rfl
        (fun arg => map_pair_iff.trans (and_congr_right fun _ => ?_))
        (fun v => sets_duration_iff (Or.inl rfl))
        fun d hempty => ⟨hempty, rfl, fun c hc => ?_, rfl, rfl, rfl⟩
      · unfold setClockSkew
        exact setMainDuration_iff.trans (and_congr_left fun _ => hnone.symm)
      · cases c <;> first | rfl | exact absurd rfl hc
  | defaultMaxExpires =>
      refine set_once_iff IsDuration .duration
        (fun main d => { main with defaultMaxExpires := some d }) rfl
        (fun arg => map_pair_iff.trans (and_congr_right fun _ => ?_))
        (fun v => sets_duration_iff (Or.inr rfl))
        fun d hempty => ⟨hempty, rfl, fun c hc => ?_, rfl, rfl, rfl⟩
      · unfold setDefaultMaxExpires
        exact setMainDuration_iff.trans (and_congr_left fun _ => hnone.symm)
      · cases c <;> first | rfl | exact absurd rfl hc
  | logDenies =>
      refine set_once_iff IsOnOff .flag (fun main b => { main with logDenies := some b }) rfl
        (fun arg => map_pair_iff.trans (and_congr_right fun _ => ?_))
        (fun v => sets_flag_iff (Or.inl rfl))
        fun b hempty => ⟨hempty, rfl, fun c hc => ?_, rfl, rfl, rfl⟩
      · unfold setLogDenies
        exact setMainFlag_iff.trans (and_congr_left fun _ => hnone.symm)
      · cases c <;> first | rfl | exact absurd rfl hc
  | logAll =>
      refine set_once_iff IsOnOff .flag (fun main b => { main with logAll := some b }) rfl
        (fun arg => map_pair_iff.trans (and_congr_right fun _ => ?_))
        (fun v => sets_flag_iff (Or.inr rfl))
        fun b hempty => ⟨hempty, rfl, fun c hc => ?_, rfl, rfl, rfl⟩
      · unfold setLogAll
        exact setMainFlag_iff.trans (and_congr_left fun _ => hnone.symm)
      · cases c <;> first | rfl | exact absurd rfl hc
  | methods => exact set_methods_iff

/-- **What a directive does** and when it is taken. -/
theorem Command.call_eq_ok_iff :
    command.call level args main loc = ok (main', loc')
      ↔ Does level main loc command args main' loc' := by
  rw [call_iff]
  have hlevel : ∀ {c : Command}, c ≠ .verify → (c.allowedAt level = true ↔ level = .http) := by
    intro c hc
    cases level with
    | http => exact iff_of_true (by cases c <;> rfl) rfl
    | nested => exact iff_of_false (by cases c <;> first | exact absurd rfl hc | decide) (by decide)
  cases hsetting : command.isSetting with
  | true =>
      have hne : command ≠ .verify := by
        rintro rfl
        cases hsetting
      rw [hlevel hne, set_setting_iff hsetting]
      refine ⟨?_, fun h => ?_⟩
      · rintro ⟨hhttp, rfl, v, hv, hputs⟩
        exact .setting hhttp hsetting hv hputs
      · cases h with
        | verify => cases hsetting
        | credential => cases hsetting
        | setting hhttp _ hv hputs => exact ⟨hhttp, rfl, _, hv, hputs⟩
  | false =>
      cases command with
      | verify =>
          refine ⟨?_, fun h => ?_⟩
          · rintro ⟨_, htakes, h⟩
            obtain ⟨arg, rfl⟩ := List.length_eq_one_iff.mp (beq_iff_eq.mp htakes)
            obtain ⟨hunset, mode, hmode, rfl, rfl⟩ := setMode_iff.mp h
            exact .verify hunset ⟨arg, rfl, hmode⟩
          · cases h with
            | verify hunset hstates =>
                obtain ⟨arg, rfl, hmode⟩ := hstates
                exact ⟨rfl, rfl, setMode_iff.mpr ⟨hunset, _, hmode, rfl, rfl⟩⟩
            | setting _ h _ _ => cases h
      | credential =>
          rw [hlevel (by decide)]
          refine ⟨?_, fun h => ?_⟩
          · rintro ⟨hhttp, _, h⟩
            obtain ⟨rfl, hset⟩ := map_pair_iff.mp h
            obtain ⟨d, hstates, hfresh, rfl⟩ := setCredential_iff.mp hset
            exact .credential hhttp hstates hfresh
          · cases h with
            | credential hhttp hstates hfresh =>
                refine ⟨hhttp, ?_, map_pair_iff.mpr ⟨rfl, setCredential_iff.mpr
                  ⟨_, hstates, hfresh, rfl⟩⟩⟩
                obtain ⟨_, rfl, first, as, rfl, _⟩ := hstates
                rfl
            | setting _ h _ _ => cases h
      | _ => cases hsetting

/-- A value that may stand in an empty slot can be put there. -/
theorem exists_puts {value : Value} (h : Sets command args value)
    (hempty : main.slot command = none) : ∃ main', Puts main command value main' := by
  cases h with
  | @clockSkew text d _ =>
      refine ⟨{ main with clockSkew := some d }, hempty, rfl, fun c hc => ?_, rfl, rfl, rfl⟩
      cases c <;> first | rfl | exact absurd rfl hc
  | @defaultMaxExpires text d _ =>
      refine ⟨{ main with defaultMaxExpires := some d }, hempty, rfl, fun c hc => ?_, rfl, rfl, rfl⟩
      cases c <;> first | rfl | exact absurd rfl hc
  | @logDenies text b _ =>
      refine ⟨{ main with logDenies := some b }, hempty, rfl, fun c hc => ?_, rfl, rfl, rfl⟩
      cases c <;> first | rfl | exact absurd rfl hc
  | @logAll text b _ =>
      refine ⟨{ main with logAll := some b }, hempty, rfl, fun c hc => ?_, rfl, rfl, rfl⟩
      cases c <;> first | rfl | exact absurd rfl hc
  | methods hne _ => exact ⟨_, puts_methods hne hempty⟩

/-! ## A block -/

/-- The mode of a block, as a slot. -/
def Mode.stated : Mode → Option Mode
  | .unset => none
  | mode => some mode

theorem Mode.stated_eq_none {mode : Mode} : mode.stated = none ↔ mode = .unset := by
  cases mode <;> simp [stated]

theorem Mode.stated_of_text {mode : Mode} (h : modeOfText arg = some mode) :
    mode.stated = some mode := by
  have hne := modeOfText_ne_unset h
  cases mode <;> first | rfl | exact absurd rfl hne

theorem Mode.stated_inj {mode mode' : Mode} (h : mode.stated = mode'.stated) : mode = mode' := by
  cases mode <;> cases mode' <;> first | rfl | cases h

/-- What reading a mode does to the configuration of `http`. -/
theorem enable_iff {mode : Mode} :
    (if mode.verifies then { main with enabledAnywhere := true } else main).enabledAnywhere = true
      ↔ main.enabledAnywhere = true ∨ mode.verifies = true := by
  cases mode.verifies <;> simp

theorem enable_slot (main : MainConf) (mode : Mode) (c : Command) :
    (if mode.verifies then { main with enabledAnywhere := true } else main).slot c
      = main.slot c := by
  cases mode.verifies
  · rfl
  · cases c <;> rfl

theorem enable_credentials (main : MainConf) (mode : Mode) :
    (if mode.verifies then { main with enabledAnywhere := true } else main).credentials
      = main.credentials := by
  cases mode.verifies <;> rfl

theorem enable_verifier (main : MainConf) (mode : Mode) :
    (if mode.verifies then { main with enabledAnywhere := true } else main).verifier
      = main.verifier := by
  cases mode.verifies <;> rfl

namespace Block

variable {b rest inner : Block}

@[simp] theorem own_directive_self : (directive command args rest).own command
    = args :: rest.own command := if_pos rfl

@[simp] theorem all_directive_self : (directive command args rest).all command
    = args :: rest.all command := if_pos rfl

theorem own_directive_of_ne {c : Command} (h : c ≠ command) :
    (directive c args rest).own command = rest.own command := if_neg h

theorem all_directive_of_ne {c : Command} (h : c ≠ command) :
    (directive c args rest).all command = rest.all command := if_neg h

/-- Some `sigv4_verify` in the block verifies. -/
def Verifies (b : Block) : Prop :=
  ∃ args ∈ b.all .verify, ∃ mode, StatesMode args mode ∧ mode.verifies = true

/-- **What a block adds** to the configuration that it is read in. -/
structure Adds (level : Level) (main₀ : MainConf) (loc₀ : LocConf) (b : Block) (main : MainConf)
    (loc : LocConf) : Prop where
  placed : level = .nested → ∀ command, command ≠ .verify → b.own command = []
  nested : ∀ inner ∈ b.blocks, (∀ command, command ≠ .verify → inner.own command = [])
    ∧ ∃ mode, Fills StatesMode none (inner.own .verify) mode
  mode : Fills StatesMode loc₀.mode.stated (b.own .verify) loc.mode.stated
  slots : ∀ command, command.isSetting = true →
    Fills (Sets command) (main₀.slot command) (b.all command) (main.slot command)
  credentials : ∃ ds, main.credentials = main₀.credentials ++ ds
    ∧ List.Forall₂ StatesCredential (b.all .credential) ds
  distinct : (main.credentials.map (·.accessKey)).Nodup
  enabledAnywhere : main.enabledAnywhere = true ↔ main₀.enabledAnywhere = true ∨ b.Verifies
  verifier : main.verifier = main₀.verifier

theorem adds_done (h₀ : (main₀.credentials.map (·.accessKey)).Nodup) :
    Adds level main₀ loc₀ done main loc ↔ main = main₀ ∧ loc = loc₀ := by
  have hnot : ¬ done.Verifies := by
    rintro ⟨_, hmem, _⟩
    cases hmem
  refine ⟨fun h => ⟨?_, ?_⟩, ?_⟩
  · obtain ⟨ds, hds, hreads⟩ := h.credentials
    cases hreads
    refine MainConf.ext_of_slots (fun c => ?_) (hds.trans (List.append_nil _)) ?_ h.verifier
    · cases hc : c.isSetting with
      | true => exact h.slots c hc
      | false => cases c <;> first | rfl | cases hc
    · exact Bool.eq_iff_iff.mpr (h.enabledAnywhere.trans (or_iff_left hnot))
  · cases loc
    cases loc₀
    rw [LocConf.mk.injEq]
    exact Mode.stated_inj h.mode
  · rintro ⟨rfl, rfl⟩
    exact ⟨fun _ _ _ => rfl, fun _ h => absurd h List.not_mem_nil, rfl, fun _ _ => rfl,
      ⟨[], (List.append_nil _).symm, .nil⟩, h₀, (or_iff_left hnot).symm, rfl⟩

theorem adds_verify : Adds level main₀ loc₀ (directive .verify args rest) main loc
      ↔ loc₀.mode = .unset ∧ ∃ mode, StatesMode args mode ∧ Adds level
        (if mode.verifies then { main₀ with enabledAnywhere := true } else main₀) ⟨mode⟩ rest main
        loc := by
  have hown : ∀ command, command ≠ .verify →
      (directive .verify args rest).own command = rest.own command :=
    fun command h => own_directive_of_ne h.symm
  have hall : ∀ command, command ≠ .verify →
      (directive .verify args rest).all command = rest.all command :=
    fun command h => all_directive_of_ne h.symm
  have hsetting : ∀ {c : Command}, c.isSetting = true → c ≠ .verify := by
    rintro c hc rfl
    cases hc
  have hverifies : (directive .verify args rest).Verifies
      ↔ (∃ mode, StatesMode args mode ∧ mode.verifies = true) ∨ rest.Verifies := by
    unfold Verifies
    rw [all_directive_self, List.exists_mem_cons_iff]
  -- an argument is the text of one mode
  have hunique : ∀ {mode}, StatesMode args mode →
      ((∃ mode', StatesMode args mode' ∧ mode'.verifies = true) ↔ mode.verifies = true) := by
    rintro mode ⟨arg, rfl, hmode⟩
    refine ⟨?_, fun h => ⟨mode, ⟨arg, rfl, hmode⟩, h⟩⟩
    rintro ⟨mode', ⟨arg', harg, hmode'⟩, h⟩
    rw [← (List.cons.inj harg).1, hmode] at hmode'
    rwa [Option.some.inj hmode']
  refine ⟨fun h => ?_, ?_⟩
  · have hmode := h.mode
    rw [own_directive_self, fills_cons] at hmode
    obtain ⟨hunset, mode, hstates, hmode⟩ := hmode
    refine ⟨Mode.stated_eq_none.mp hunset, mode, hstates, ?_⟩
    obtain ⟨arg, rfl, htext⟩ := hstates
    refine ⟨fun hlevel c hc => (hown c hc).symm.trans (h.placed hlevel c hc), h.nested, ?_,
      fun c hc => ?_, ?_, h.distinct, ?_, h.verifier.trans (enable_verifier _ _).symm⟩
    · rw [Mode.stated_of_text htext]
      exact hmode
    · rw [enable_slot, ← hall c (hsetting hc)]
      exact h.slots c hc
    · rw [enable_credentials, ← hall .credential (by decide)]
      exact h.credentials
    · rw [enable_iff, ← hunique ⟨arg, rfl, htext⟩, or_assoc, ← hverifies]
      exact h.enabledAnywhere
  · rintro ⟨hunset, mode, hstates, h⟩
    refine ⟨fun hlevel c hc => (hown c hc).trans (h.placed hlevel c hc), h.nested, ?_,
      fun c hc => ?_, ?_, h.distinct, ?_, h.verifier.trans (enable_verifier _ _)⟩
    · rw [own_directive_self, fills_cons]
      refine ⟨Mode.stated_eq_none.mpr hunset, mode, hstates, ?_⟩
      obtain ⟨arg, rfl, htext⟩ := hstates
      rw [← Mode.stated_of_text htext]
      exact h.mode
    · rw [hall c (hsetting hc), ← enable_slot main₀ mode]
      exact h.slots c hc
    · rw [hall .credential (by decide), ← enable_credentials main₀ mode]
      exact h.credentials
    · rw [hverifies, hunique hstates, ← or_assoc, ← enable_iff]
      exact h.enabledAnywhere

theorem adds_credential : Adds level main₀ loc₀ (directive .credential args rest) main loc
      ↔ level = .http ∧ ∃ d, StatesCredential args d
        ∧ (∀ other ∈ main₀.credentials, other.accessKey ≠ d.accessKey)
        ∧ Adds level { main₀ with credentials := main₀.credentials ++ [d] } loc₀ rest main loc := by
  have hown : ∀ command, command ≠ .credential →
      (directive .credential args rest).own command = rest.own command :=
    fun command h => own_directive_of_ne h.symm
  have hall : ∀ command, command ≠ .credential →
      (directive .credential args rest).all command = rest.all command :=
    fun command h => all_directive_of_ne h.symm
  have hsetting : ∀ {c : Command}, c.isSetting = true → c ≠ .credential := by
    rintro c hc rfl
    cases hc
  have hslot : ∀ (d : CredentialDirective) (c : Command),
      ({ main₀ with credentials := main₀.credentials ++ [d] } : MainConf).slot c = main₀.slot c := by
    intro d c
    cases c <;> rfl
  have hverifies : (directive .credential args rest).Verifies ↔ rest.Verifies := by
    unfold Verifies
    rw [hall .verify (by decide)]
  refine ⟨fun h => ?_, ?_⟩
  · have hhttp : level = .http := by
      cases level with
      | http => rfl
      | nested =>
          have hnil := h.placed rfl .credential (by decide)
          rw [own_directive_self] at hnil
          cases hnil
    obtain ⟨ds, hds, hstates⟩ := h.credentials
    rw [all_directive_self] at hstates
    cases hstates with
    | @cons _ d _ ds hd hrest =>
        rw [List.append_cons] at hds
        refine ⟨hhttp, d, hd, fun other hother heq => ?_, fun hlevel => ?_, h.nested, ?_,
          fun c hc => ?_, ⟨ds, hds, hrest⟩, h.distinct, ?_, h.verifier⟩
        · have hdistinct := h.distinct
          rw [hds, List.map_append, List.map_append] at hdistinct
          have hfresh := (List.nodup_append.mp (List.nodup_append.mp hdistinct).1).2.2
          exact hfresh _ (List.mem_map_of_mem hother) _ (List.mem_singleton.mpr rfl) heq
        · rw [hhttp] at hlevel
          cases hlevel
        · rw [← hown .verify (by decide)]
          exact h.mode
        · rw [hslot, ← hall c (hsetting hc)]
          exact h.slots c hc
        · rw [← hverifies]
          exact h.enabledAnywhere
  · rintro ⟨rfl, d, hd, _, h⟩
    obtain ⟨ds, hds, hrest⟩ := h.credentials
    refine ⟨fun hlevel => Level.noConfusion hlevel, h.nested, ?_, fun c hc => ?_, ⟨d :: ds, ?_, ?_⟩,
      h.distinct, ?_, h.verifier⟩
    · rw [hown .verify (by decide)]
      exact h.mode
    · rw [hall c (hsetting hc), ← hslot d]
      exact h.slots c hc
    · rw [hds, List.append_assoc]
      rfl
    · rw [all_directive_self]
      exact .cons hd hrest
    · rw [hverifies]
      exact h.enabledAnywhere

theorem adds_setting (hsetting : command.isSetting = true) :
    Adds level main₀ loc₀ (directive command args rest) main loc
      ↔ level = .http ∧ ∃ v main₁, Sets command args v ∧ Puts main₀ command v main₁
        ∧ Adds level main₁ loc₀ rest main loc := by
  have hverify : command ≠ .verify := by
    rintro rfl
    cases hsetting
  have hcredential : command ≠ .credential := by
    rintro rfl
    cases hsetting
  have hverifies : (directive command args rest).Verifies ↔ rest.Verifies := by
    unfold Verifies
    rw [all_directive_of_ne hverify]
  refine ⟨fun h => ?_, ?_⟩
  · have hhttp : level = .http := by
      cases level with
      | http => rfl
      | nested =>
          have hnil := h.placed rfl command hverify
          rw [own_directive_self] at hnil
          cases hnil
    have hslot := h.slots command hsetting
    rw [all_directive_self, fills_cons] at hslot
    obtain ⟨hempty, v, hv, hslot⟩ := hslot
    obtain ⟨main₁, hputs⟩ := exists_puts hv hempty
    refine ⟨hhttp, v, main₁, hv, hputs, fun hlevel => ?_, h.nested, ?_, fun c hc => ?_, ?_,
      h.distinct, ?_, h.verifier.trans hputs.rest.verifier.symm⟩
    · rw [hhttp] at hlevel
      cases hlevel
    · rw [← own_directive_of_ne hverify]
      exact h.mode
    · by_cases heq : c = command
      · rw [heq, hputs.slot]
        exact hslot
      · rw [hputs.others c heq, ← all_directive_of_ne (Ne.symm heq)]
        exact h.slots c hc
    · rw [hputs.rest.credentials, ← all_directive_of_ne hcredential]
      exact h.credentials
    · rw [hputs.rest.enabledAnywhere, ← hverifies]
      exact h.enabledAnywhere
  · rintro ⟨rfl, v, main₁, hv, hputs, h⟩
    refine ⟨fun hlevel => Level.noConfusion hlevel, h.nested, ?_, fun c hc => ?_, ?_, h.distinct, ?_,
      h.verifier.trans hputs.rest.verifier⟩
    · rw [own_directive_of_ne hverify]
      exact h.mode
    · by_cases heq : c = command
      · rw [heq, all_directive_self, fills_cons]
        refine ⟨hputs.empty, v, hv, ?_⟩
        rw [← hputs.slot]
        exact h.slots command hsetting
      · rw [all_directive_of_ne (Ne.symm heq), ← hputs.others c heq]
        exact h.slots c hc
    · rw [all_directive_of_ne hcredential, ← hputs.rest.credentials]
      exact h.credentials
    · rw [hverifies, ← hputs.rest.enabledAnywhere]
      exact h.enabledAnywhere

/-- **A directive adds** its own part before what follows adds the rest. -/
theorem adds_directive : Adds level main₀ loc₀ (directive command args rest) main loc
      ↔ ∃ main₁ loc₁, Does level main₀ loc₀ command args main₁ loc₁
        ∧ Adds level main₁ loc₁ rest main loc := by
  refine ⟨fun h => ?_, ?_⟩
  · cases hsetting : command.isSetting with
    | true =>
        obtain ⟨hhttp, v, main₁, hv, hputs, h⟩ := (adds_setting hsetting).mp h
        exact ⟨main₁, loc₀, .setting hhttp hsetting hv hputs, h⟩
    | false =>
        cases command with
        | verify =>
            obtain ⟨hunset, mode, hmode, h⟩ := adds_verify.mp h
            exact ⟨_, _, .verify hunset hmode, h⟩
        | credential =>
            obtain ⟨hhttp, d, hd, hfresh, h⟩ := adds_credential.mp h
            exact ⟨_, _, .credential hhttp hd hfresh, h⟩
        | _ => cases hsetting
  · rintro ⟨main₁, loc₁, hdoes, h⟩
    cases hdoes with
    | verify hunset hmode => exact adds_verify.mpr ⟨hunset, _, hmode, h⟩
    | credential hhttp hd hfresh => exact adds_credential.mpr ⟨hhttp, _, hd, hfresh, h⟩
    | setting hhttp hsetting hv hputs =>
        exact (adds_setting hsetting).mpr ⟨hhttp, _, _, hv, hputs, h⟩

theorem all_eq_nil (h : ∀ inner ∈ b :: b.blocks, inner.own command = []) : b.all command = [] := by
  induction b with
  | done => rfl
  | directive c args rest ih =>
      have hown := h _ List.mem_cons_self
      by_cases hc : c = command
      · rw [hc, own_directive_self] at hown
        cases hown
      · rw [own_directive_of_ne hc] at hown
        rw [all_directive_of_ne hc]
        exact ih (List.forall_mem_cons.mpr ⟨hown, (List.forall_mem_cons.mp h).2⟩)
  | block inner rest ihinner ihrest =>
      obtain ⟨hown, hinner, hblocks⟩ :=
        List.forall_mem_cons.mp h |>.imp_right List.forall_mem_cons.mp
      rw [List.forall_mem_append] at hblocks
      show inner.all command ++ rest.all command = []
      rw [ihinner (List.forall_mem_cons.mpr ⟨hinner, hblocks.1⟩),
        ihrest (List.forall_mem_cons.mpr ⟨hown, hblocks.2⟩)]
      rfl

theorem verifies_block : (block inner rest).Verifies ↔ inner.Verifies ∨ rest.Verifies := by
  unfold Verifies
  simp only [all, List.mem_append, or_and_right, exists_or]

/-- The slot of the mode that a block states. -/
theorem stated_getD {mode : Option Mode} {l : List (List Bytes)} (h : Fills StatesMode none l mode) :
    (mode.getD .unset).stated = mode := by
  match l with
  | [] =>
      rw [show mode = none from h]
      rfl
  | [_] =>
      obtain ⟨_, m, ⟨arg, _, hmode⟩, rfl⟩ := h
      exact Mode.stated_of_text hmode
  | _ :: _ :: _ => exact absurd h id

/-- **A nested block adds** its own part before what follows adds the rest. -/
theorem adds_block (h₀ : (main₀.credentials.map (·.accessKey)).Nodup) :
    Adds level main₀ loc₀ (block inner rest) main loc
      ↔ ∃ main₁ innerLoc, Adds .nested main₀ .default inner main₁ innerLoc
        ∧ Adds level main₁ loc₀ rest main loc := by
  refine ⟨fun h => ?_, ?_⟩
  · obtain ⟨⟨hown, mode, hmode⟩, hblocks⟩ := List.forall_mem_cons.mp h.nested
    rw [List.forall_mem_append] at hblocks
    -- nothing but modes stands in the nested block
    have hnil : ∀ c, c ≠ .verify → inner.all c = [] := fun c hc =>
      all_eq_nil (List.forall_mem_cons.mpr ⟨hown c hc, fun b hb => (hblocks.1 b hb).1 c hc⟩)
    have hsetting : ∀ {c : Command}, c.isSetting = true → c ≠ .verify := by
      rintro c hc rfl
      cases hc
    have hall : ∀ c, c ≠ .verify → (block inner rest).all c = rest.all c := fun c hc => by
      show inner.all c ++ rest.all c = rest.all c
      rw [hnil c hc, List.nil_append]
    obtain ⟨main₁, hslot, hcredentials, henabled, hverifier⟩ : ∃ main₁ : MainConf,
        (∀ c, main₁.slot c = main₀.slot c) ∧ main₁.credentials = main₀.credentials
          ∧ (main₁.enabledAnywhere = true ↔ main₀.enabledAnywhere = true ∨ inner.Verifies)
          ∧ main₁.verifier = main₀.verifier := by
      by_cases hverifies : inner.Verifies
      · exact ⟨{ main₀ with enabledAnywhere := true }, fun c => by cases c <;> rfl, rfl,
          iff_of_true rfl (Or.inr hverifies), rfl⟩
      · exact ⟨main₀, fun _ => rfl, rfl, (or_iff_left hverifies).symm, rfl⟩
    refine ⟨main₁, ⟨mode.getD .unset⟩, ⟨fun _ => hown, hblocks.1, ?_, fun c hc => ?_, ⟨[], ?_, ?_⟩,
      ?_, henabled, hverifier⟩, h.placed, hblocks.2, h.mode, fun c hc => ?_, ?_, h.distinct, ?_,
      h.verifier.trans hverifier.symm⟩
    · rw [stated_getD hmode]
      exact hmode
    · rw [hnil c (hsetting hc)]
      exact hslot c
    · rw [hcredentials, List.append_nil]
    · rw [hnil .credential (by decide)]
      exact .nil
    · rw [hcredentials]
      exact h₀
    · rw [hslot, ← hall c (hsetting hc)]
      exact h.slots c hc
    · rw [hcredentials, ← hall .credential (by decide)]
      exact h.credentials
    · rw [henabled, or_assoc, ← verifies_block]
      exact h.enabledAnywhere
  · rintro ⟨main₁, innerLoc, hinner, h⟩
    obtain ⟨ds₁, hds₁, hstates₁⟩ := hinner.credentials
    obtain ⟨ds₂, hds₂, hstates₂⟩ := h.credentials
    refine ⟨h.placed, ?_, h.mode, fun c hc => ?_, ⟨ds₁ ++ ds₂, ?_, ?_⟩, h.distinct, ?_,
      h.verifier.trans hinner.verifier⟩
    · refine List.forall_mem_cons.mpr ⟨⟨hinner.placed rfl, _, hinner.mode⟩, ?_⟩
      exact List.forall_mem_append.mpr ⟨hinner.nested, h.nested⟩
    · exact fills_append.mpr ⟨_, hinner.slots c hc, h.slots c hc⟩
    · rw [hds₂, hds₁, List.append_assoc]
    · exact List.rel_append hstates₁ hstates₂
    · rw [verifies_block, ← or_assoc, ← hinner.enabledAnywhere]
      exact h.enabledAnywhere

/-- **What a block is read as** is what it adds. -/
theorem parse_adds {locations : Locations} (h₀ : (main₀.credentials.map (·.accessKey)).Nodup) :
    b.parse level main₀ loc₀ = ok (main, loc, locations)
      ↔ Adds level main₀ loc₀ b main loc ∧ locations = b.locations := by
  induction b generalizing level main₀ loc₀ main loc locations with
  | done =>
      rw [adds_done h₀]
      refine ⟨fun h => ?_, ?_⟩
      · obtain ⟨rfl, hpair⟩ := Prod.mk.inj (Outcome.ok.inj h)
        obtain ⟨rfl, rfl⟩ := Prod.mk.inj hpair
        exact ⟨⟨rfl, rfl⟩, rfl⟩
      · rintro ⟨⟨rfl, rfl⟩, rfl⟩
        rfl
  | directive command args rest ih =>
      have hkeep : ∀ {main₁ loc₁}, Does level main₀ loc₀ command args main₁ loc₁ →
          (main₁.credentials.map (·.accessKey)).Nodup :=
        fun hdoes => (Command.call_eq_ok (Command.call_eq_ok_iff.mpr hdoes)).distinct h₀
      rw [adds_directive]
      refine ⟨fun h => ?_, ?_⟩
      · obtain ⟨⟨main₁, loc₁⟩, hcall, hrest⟩ := bind_eq_ok.mp h
        have hdoes := Command.call_eq_ok_iff.mp hcall
        obtain ⟨hadds, hlocations⟩ := (ih (hkeep hdoes)).mp hrest
        exact ⟨⟨main₁, loc₁, hdoes, hadds⟩, hlocations⟩
      · rintro ⟨⟨main₁, loc₁, hdoes, hadds⟩, hlocations⟩
        refine bind_eq_ok.mpr ⟨(main₁, loc₁), Command.call_eq_ok_iff.mpr hdoes, ?_⟩
        exact (ih (hkeep hdoes)).mpr ⟨hadds, hlocations⟩
  | block inner rest ihinner ihrest =>
      rw [adds_block h₀]
      refine ⟨fun h => ?_, ?_⟩
      · obtain ⟨main₁, innerLoc, nested, siblings, hinner, hrest, rfl⟩ := parse_block_eq_ok h
        have hinnerLoc := (parse_default_mode hinner).1
        obtain ⟨hadds, rfl⟩ := (ihinner h₀).mp hinner
        obtain ⟨haddsRest, rfl⟩ := (ihrest hadds.distinct).mp hrest
        refine ⟨⟨main₁, innerLoc, hadds, haddsRest⟩, ?_⟩
        rw [hinnerLoc]
        rfl
      · rintro ⟨⟨main₁, innerLoc, hadds, haddsRest⟩, rfl⟩
        have hinner := (ihinner h₀).mpr ⟨hadds, rfl⟩
        have hrest := (ihrest hadds.distinct).mpr ⟨haddsRest, rfl⟩
        refine bind_eq_ok.mpr ⟨_, hinner, bind_eq_ok.mpr ⟨_, hrest, ?_⟩⟩
        rw [(parse_default_mode hinner).1]
        rfl

end Block

end SigV4
