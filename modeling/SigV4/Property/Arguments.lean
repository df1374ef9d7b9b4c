import Mathlib.Data.List.DropRight
import SigV4.Proof.Answer
import SigV4.Property.Directive
import SigV4.Property.Duration
import SigV4.Spec.Directive

/-!
# What a credential directive accepts

`CredentialDirective::parse` accepts exactly the lists of arguments that stand for something, and
gives what they stand for; `resolve` adds exactly the secret that is held. The loop over the
arguments sets one slot after another, so what it has read is what all of them say together
(`Adds`).
-/

namespace SigV4

open Outcome Ascii Spec Slots

/-! ## Values -/

theorem parseOnOff_eq_ok {text : Str} {b : Bool} : parseOnOff text = ok b ↔ IsOnOff text b := by
  unfold parseOnOff IsOnOff
  by_cases hon : text = .lit "on"
  · subst hon
    refine ⟨fun h => Or.inl ⟨rfl, (Outcome.ok.inj h).symm⟩, ?_⟩
    rintro (⟨_, rfl⟩ | ⟨h, _⟩)
    · rfl
    · exact absurd h (by decide)
  · rw [if_neg (by simpa using hon)]
    by_cases hoff : text = .lit "off"
    · subst hoff
      refine ⟨fun h => Or.inr ⟨rfl, (Outcome.ok.inj h).symm⟩, ?_⟩
      rintro (⟨h, _⟩ | ⟨_, rfl⟩)
      · exact absurd h hon
      · rfl
    · rw [if_neg (by simpa using hoff)]
      refine ⟨fun h => absurd h (by simp), ?_⟩
      rintro (⟨h, _⟩ | ⟨h, _⟩)
      · exact absurd h hon
      · exact absurd h hoff

theorem parseDuration_eq_ok {text : Str} {d : Duration} :
    parseDuration text = ok d ↔ IsDuration text d := by
  by_cases hw : ∃ w : Written, w.text = text.bytes
  · obtain ⟨w, hw⟩ := hw
    rw [parseDuration_text hw]
    split
    · rename_i hlt
      refine ⟨fun h => ⟨w, hw, hlt, (Outcome.ok.inj h).symm⟩, ?_⟩
      rintro ⟨w', hw', hlt', rfl⟩
      -- both writings are read as the same number
      have h := parseDuration_text hw'
      rw [parseDuration_text hw, if_pos hlt, if_pos hlt'] at h
      exact h
    · rename_i hlt
      refine ⟨fun h => absurd h (by simp), ?_⟩
      rintro ⟨w', hw', hlt', rfl⟩
      have h := parseDuration_text hw'
      rw [parseDuration_text hw, if_neg hlt, if_pos hlt'] at h
      cases h
  · obtain ⟨e, he⟩ := parseDuration_not_text hw
    rw [he]
    refine ⟨fun h => absurd h (by simp), ?_⟩
    rintro ⟨w, hw', _, _⟩
    exact absurd ⟨w, hw'⟩ hw

namespace CredentialDirective

variable {d d₀ d₁ : CredentialDirective} {a : Argument} {as : List Argument}

/-! ## What the loop adds -/

/-- What the arguments `as` make of the directive `d₀`. -/
structure Adds (d₀ : CredentialDirective) (as : List Argument) (d : CredentialDirective) : Prop where
  accessKey : d.accessKey = d₀.accessKey
  usable : ∀ a ∈ as, a.Usable
  secret : Fills (· = ·) d₀.secret (as.filterMap Argument.source?) d.secret
  enabled : Fills IsOnOff d₀.enabled (as.filterMap Argument.enabled?) d.enabled
  maxExpires : Fills IsDuration d₀.maxExpires (as.filterMap Argument.maxExpires?) d.maxExpires
  allowed : ∀ dim, d.allowed dim = d₀.allowed dim ++ as.filterMap (Argument.allowed? dim)
  isFree : ∀ dim, d.isFree dim = true ↔ d₀.isFree dim = true ∨ .free dim ∈ as

/-- A directive is told by what the parts of it are. -/
theorem ext_of_parts {d e : CredentialDirective} (haccessKey : d.accessKey = e.accessKey)
    (hsecret : d.secret = e.secret) (henabled : d.enabled = e.enabled)
    (hmaxExpires : d.maxExpires = e.maxExpires) (hallowed : ∀ dim, d.allowed dim = e.allowed dim)
    (hisFree : ∀ dim, d.isFree dim = e.isFree dim) : d = e := by
  have h1 := hallowed .host
  have h2 := hallowed .method
  have h3 := hallowed .path
  have h4 := hisFree .host
  have h5 := hisFree .method
  have h6 := hisFree .path
  cases d
  cases e
  simp only [allowed, isFree] at *
  rw [haccessKey, hsecret, henabled, hmaxExpires, h1, h2, h3, h4, h5, h6]

theorem adds_nil : Adds d₀ [] d ↔ d = d₀ := by
  refine ⟨fun h => ?_, ?_⟩
  · refine ext_of_parts h.accessKey h.secret h.enabled h.maxExpires (fun dim => ?_) fun dim => ?_
    · rw [h.allowed dim]
      exact List.append_nil _
    · refine Bool.eq_iff_iff.mpr ((h.isFree dim).trans (or_iff_left ?_))
      exact List.not_mem_nil
  · rintro rfl
    exact ⟨rfl, fun _ ha => absurd ha List.not_mem_nil, rfl, rfl, rfl,
      fun _ => (List.append_nil _).symm, fun _ => (or_iff_left List.not_mem_nil).symm⟩

theorem filterMap_cons_append {β : Type} (f : Argument → Option β) (a : Argument)
    (as : List Argument) : (a :: as).filterMap f = [a].filterMap f ++ as.filterMap f :=
  List.filterMap_append (l := [a])

/-- **Arguments are added one after the other.** -/
theorem adds_cons : Adds d₀ (a :: as) d ↔ ∃ d₁, Adds d₀ [a] d₁ ∧ Adds d₁ as d := by
  refine ⟨fun h => ?_, ?_⟩
  · have hsecret := h.secret
    have henabled := h.enabled
    have hmaxExpires := h.maxExpires
    rw [filterMap_cons_append, fills_append] at hsecret henabled hmaxExpires
    obtain ⟨secret, hsecret, hsecret'⟩ := hsecret
    obtain ⟨enabled, henabled, henabled'⟩ := henabled
    obtain ⟨maxExpires, hmaxExpires, hmaxExpires'⟩ := hmaxExpires
    let d₁ : CredentialDirective := {
      accessKey := d₀.accessKey, secret, enabled, maxExpires
      allowedHosts := d₀.allowedHosts ++ [a].filterMap (Argument.allowed? .host)
      allowAnyHost := d₀.allowAnyHost || decide (.free .host ∈ [a])
      allowedMethods := d₀.allowedMethods ++ [a].filterMap (Argument.allowed? .method)
      allowDefaultMethods := d₀.allowDefaultMethods || decide (.free .method ∈ [a])
      allowedPrefixes := d₀.allowedPrefixes ++ [a].filterMap (Argument.allowed? .path)
      allowAnyPrefix := d₀.allowAnyPrefix || decide (.free .path ∈ [a]) }
    have hallowed : ∀ dim, d₁.allowed dim
        = d₀.allowed dim ++ [a].filterMap (Argument.allowed? dim) := by
      intro dim
      cases dim <;> rfl
    have hisFree : ∀ dim, d₁.isFree dim = true ↔ d₀.isFree dim = true ∨ .free dim ∈ [a] := by
      intro dim
      cases dim <;> exact (Bool.or_eq_true _ _).to_iff.trans (or_congr_right decide_eq_true_iff)
    refine ⟨d₁, ⟨rfl, fun b hb => ?_, hsecret, henabled, hmaxExpires, hallowed, hisFree⟩,
      ⟨h.accessKey, fun b hb => h.usable b (List.mem_cons_of_mem a hb), hsecret', henabled',
        hmaxExpires', fun dim => ?_, fun dim => ?_⟩⟩
    · rw [List.mem_singleton.mp hb]
      exact h.usable a List.mem_cons_self
    · rw [h.allowed, hallowed, filterMap_cons_append, List.append_assoc]
    · rw [h.isFree, hisFree, or_assoc, List.mem_cons, List.mem_singleton]
  · rintro ⟨d₁, h, h'⟩
    refine ⟨h'.accessKey.trans h.accessKey, ?_, ?_, ?_, ?_, fun dim => ?_, fun dim => ?_⟩
    · exact List.forall_mem_cons.mpr ⟨h.usable a (List.mem_singleton.mpr rfl), h'.usable⟩
    · rw [filterMap_cons_append, fills_append]
      exact ⟨_, h.secret, h'.secret⟩
    · rw [filterMap_cons_append, fills_append]
      exact ⟨_, h.enabled, h'.enabled⟩
    · rw [filterMap_cons_append, fills_append]
      exact ⟨_, h.maxExpires, h'.maxExpires⟩
    · rw [h'.allowed, h.allowed, filterMap_cons_append _ a as, List.append_assoc]
    · rw [h'.isFree, h.isFree, or_assoc, List.mem_singleton, ← List.mem_cons]

/-! A flag and a listed value each change one part of a directive. -/

@[simp] theorem setFree_accessKey (dim : Dimension) :
    (d₀.setFree dim).accessKey = d₀.accessKey := by cases dim <;> rfl

@[simp] theorem setFree_secret (dim : Dimension) : (d₀.setFree dim).secret = d₀.secret := by
  cases dim <;> rfl

@[simp] theorem setFree_enabled (dim : Dimension) : (d₀.setFree dim).enabled = d₀.enabled := by
  cases dim <;> rfl

@[simp] theorem setFree_maxExpires (dim : Dimension) :
    (d₀.setFree dim).maxExpires = d₀.maxExpires := by cases dim <;> rfl

@[simp] theorem setFree_allowed (dim dim' : Dimension) :
    (d₀.setFree dim).allowed dim' = d₀.allowed dim' := by cases dim <;> cases dim' <;> rfl

theorem isFree_setFree (dim dim' : Dimension) :
    (d₀.setFree dim).isFree dim' = true ↔ d₀.isFree dim' = true ∨ dim' = dim := by
  cases dim <;> cases dim' <;> simp [setFree, isFree]

@[simp] theorem push_accessKey (value : Str) (dim : Dimension) :
    (d₀.push value dim).accessKey = d₀.accessKey := by cases dim <;> rfl

@[simp] theorem push_secret (value : Str) (dim : Dimension) :
    (d₀.push value dim).secret = d₀.secret := by cases dim <;> rfl

@[simp] theorem push_enabled (value : Str) (dim : Dimension) :
    (d₀.push value dim).enabled = d₀.enabled := by cases dim <;> rfl

@[simp] theorem push_maxExpires (value : Str) (dim : Dimension) :
    (d₀.push value dim).maxExpires = d₀.maxExpires := by cases dim <;> rfl

@[simp] theorem push_isFree (value : Str) (dim dim' : Dimension) :
    (d₀.push value dim).isFree dim' = d₀.isFree dim' := by cases dim <;> cases dim' <;> rfl

theorem allowed_push (value : Str) (dim dim' : Dimension) :
    (d₀.push value dim).allowed dim'
      = d₀.allowed dim' ++ [Argument.keyed (.allowed dim) value].filterMap (Argument.allowed? dim')
      := by
  cases dim <;> cases dim' <;> simp [push, allowed, Argument.allowed?]

/-- The slots of a directive are apart from its lists and its flags. -/
theorem allowed_slots (secret : Option SecretSource) (enabled : Option Bool)
    (maxExpires : Option Duration) (dim : Dimension) :
    ({ d₀ with secret, enabled, maxExpires } : CredentialDirective).allowed dim
      = d₀.allowed dim := by cases dim <;> rfl

theorem isFree_slots (secret : Option SecretSource) (enabled : Option Bool)
    (maxExpires : Option Duration) (dim : Dimension) :
    ({ d₀ with secret, enabled, maxExpires } : CredentialDirective).isFree dim
      = d₀.isFree dim := by cases dim <;> rfl

/-- **An argument that fills a slot** leaves the lists and the flags as they are. -/
theorem adds_slot {key : Key} {value : Str} (hkey : ∀ dim, key ≠ .allowed dim) :
    Adds d₀ [.keyed key value] d
      ↔ (Argument.keyed key value).Usable
        ∧ Fills (· = ·) d₀.secret ([Argument.keyed key value].filterMap Argument.source?) d.secret
        ∧ Fills IsOnOff d₀.enabled ([Argument.keyed key value].filterMap Argument.enabled?)
          d.enabled
        ∧ Fills IsDuration d₀.maxExpires
          ([Argument.keyed key value].filterMap Argument.maxExpires?) d.maxExpires
        ∧ d = { d₀ with secret := d.secret, enabled := d.enabled, maxExpires := d.maxExpires } := by
  have hnone : ∀ dim, [Argument.keyed key value].filterMap (Argument.allowed? dim) = [] := by
    intro dim
    cases key with
    | allowed dim' => exact absurd rfl (hkey dim')
    | _ => rfl
  have hfree : ∀ dim, Argument.free dim ∉ [Argument.keyed key value] := by simp
  refine ⟨fun h => ?_, ?_⟩
  · refine ⟨h.usable _ (List.mem_singleton.mpr rfl), h.secret, h.enabled, h.maxExpires, ?_⟩
    refine ext_of_parts h.accessKey rfl rfl rfl (fun dim => ?_) fun dim => ?_
    · rw [h.allowed, hnone, List.append_nil]
      exact (allowed_slots _ _ _ dim).symm
    · refine Eq.trans ?_ (isFree_slots _ _ _ dim).symm
      exact Bool.eq_iff_iff.mpr ((h.isFree dim).trans (or_iff_left (hfree dim)))
  · rintro ⟨husable, hsecret, henabled, hmaxExpires, hd⟩
    refine ⟨by rw [hd], List.forall_mem_singleton.mpr husable, hsecret, henabled, hmaxExpires,
      fun dim => ?_, fun dim => ?_⟩
    · rw [hnone, List.append_nil, hd]
      exact allowed_slots _ _ _ dim
    · rw [hd]
      exact (Bool.eq_iff_iff.mp (isFree_slots _ _ _ dim)).trans (or_iff_left (hfree dim)).symm

theorem adds_free (dim : Dimension) : Adds d₀ [.free dim] d ↔ d = d₀.setFree dim := by
  refine ⟨fun h => ?_, ?_⟩
  · refine ext_of_parts ?_ ?_ ?_ ?_ (fun dim' => ?_) fun dim' => ?_
    · rw [h.accessKey, setFree_accessKey]
    · exact h.secret.trans (setFree_secret dim).symm
    · exact h.enabled.trans (setFree_enabled dim).symm
    · exact h.maxExpires.trans (setFree_maxExpires dim).symm
    · rw [h.allowed, setFree_allowed]
      exact List.append_nil _
    · refine Bool.eq_iff_iff.mpr ((h.isFree dim').trans ?_)
      rw [isFree_setFree, List.mem_singleton]
      exact or_congr_right ⟨fun he => Argument.free.inj he, fun he => by rw [he]⟩
  · rintro rfl
    refine ⟨setFree_accessKey dim, List.forall_mem_singleton.mpr trivial, setFree_secret dim,
      setFree_enabled dim, setFree_maxExpires dim, fun dim' => ?_, fun dim' => ?_⟩
    · rw [setFree_allowed]
      exact (List.append_nil _).symm
    · rw [isFree_setFree, List.mem_singleton]
      exact or_congr_right ⟨fun he => by rw [he], fun he => Argument.free.inj he⟩

theorem adds_allowed (dim : Dimension) (value : Str) : Adds d₀ [.keyed (.allowed dim) value] d
    ↔ (Argument.keyed (.allowed dim) value).Usable ∧ d = d₀.push value dim := by
  have hfree : ∀ dim', Argument.free dim' ∉ [Argument.keyed (.allowed dim) value] := by simp
  refine ⟨fun h => ⟨h.usable _ (List.mem_singleton.mpr rfl), ?_⟩, ?_⟩
  · refine ext_of_parts ?_ ?_ ?_ ?_ (fun dim' => ?_) fun dim' => ?_
    · rw [h.accessKey, push_accessKey]
    · exact h.secret.trans (push_secret value dim).symm
    · exact h.enabled.trans (push_enabled value dim).symm
    · exact h.maxExpires.trans (push_maxExpires value dim).symm
    · rw [h.allowed, allowed_push]
    · rw [push_isFree]
      exact Bool.eq_iff_iff.mpr ((h.isFree dim').trans (or_iff_left (hfree dim')))
  · rintro ⟨husable, rfl⟩
    refine ⟨push_accessKey value dim, List.forall_mem_singleton.mpr husable, push_secret value dim,
      push_enabled value dim, push_maxExpires value dim, allowed_push value dim, fun dim' => ?_⟩
    rw [push_isFree]
    exact (or_iff_left (hfree dim')).symm

/-- **An argument alone** adds what `Reads` says. -/
theorem adds_singleton : Adds d₀ [a] d ↔ Reads d₀ a d := by
  cases a with
  | free dim =>
      rw [adds_free]
      refine ⟨?_, fun h => by cases h; rfl⟩
      rintro rfl
      exact .free dim
  | keyed key value =>
      cases key with
      | secretKeyFile =>
          rw [adds_slot fun _ => Key.noConfusion]
          refine ⟨?_, ?_⟩
          · rintro ⟨husable, ⟨hnone, _, rfl, hsecret⟩, henabled, hmaxExpires, hd⟩
            rw [hd, hsecret, show d.enabled = d₀.enabled from henabled,
              show d.maxExpires = d₀.maxExpires from hmaxExpires]
            exact .secretKeyFile husable hnone
          · intro h
            cases h with
            | secretKeyFile husable hnone => exact ⟨husable, ⟨hnone, _, rfl, rfl⟩, rfl, rfl, rfl⟩
      | secretKey =>
          rw [adds_slot fun _ => Key.noConfusion]
          refine ⟨?_, ?_⟩
          · rintro ⟨husable, ⟨hnone, _, rfl, hsecret⟩, henabled, hmaxExpires, hd⟩
            rw [hd, hsecret, show d.enabled = d₀.enabled from henabled,
              show d.maxExpires = d₀.maxExpires from hmaxExpires]
            exact .secretKey husable hnone
          · intro h
            cases h with
            | secretKey husable hnone => exact ⟨husable, ⟨hnone, _, rfl, rfl⟩, rfl, rfl, rfl⟩
      | enabled =>
          rw [adds_slot fun _ => Key.noConfusion]
          refine ⟨?_, ?_⟩
          · rintro ⟨_, hsecret, ⟨hnone, b, hb, henabled⟩, hmaxExpires, hd⟩
            rw [hd, henabled, show d.secret = d₀.secret from hsecret,
              show d.maxExpires = d₀.maxExpires from hmaxExpires]
            exact .enabled hnone (parseOnOff_eq_ok.mpr hb)
          · intro h
            cases h with
            | enabled hnone hvalue =>
                exact ⟨isEmpty_of_parseOnOff hvalue, rfl,
                  ⟨hnone, _, parseOnOff_eq_ok.mp hvalue, rfl⟩, rfl, rfl⟩
      | maxExpires =>
          rw [adds_slot fun _ => Key.noConfusion]
          refine ⟨?_, ?_⟩
          · rintro ⟨_, hsecret, henabled, ⟨hnone, m, hm, hmaxExpires⟩, hd⟩
            rw [hd, hmaxExpires, show d.secret = d₀.secret from hsecret,
              show d.enabled = d₀.enabled from henabled]
            exact .maxExpires hnone (parseDuration_eq_ok.mpr hm)
          · intro h
            cases h with
            | maxExpires hnone hvalue =>
                exact ⟨isEmpty_of_parseDuration hvalue, rfl, rfl,
                  ⟨hnone, _, parseDuration_eq_ok.mp hvalue, rfl⟩, rfl⟩
      | allowed dim =>
          rw [adds_allowed]
          refine ⟨?_, ?_⟩
          · rintro ⟨husable, rfl⟩
            exact .allowed dim husable
          · intro h
            cases h with
            | allowed _ husable => exact ⟨husable, rfl⟩

/-- **The loop over the arguments** reads what they add. -/
theorem foldlM_parseArg_eq_ok {rest : List Str} :
    rest.foldlM parseArg d₀ = ok d ↔ ∃ as, rest = as.map Argument.text ∧ Adds d₀ as d := by
  induction rest generalizing d₀ with
  | nil =>
      refine ⟨fun h => ⟨[], rfl, adds_nil.mpr (Outcome.ok.inj h).symm⟩, ?_⟩
      rintro ⟨as, has, h⟩
      rw [List.map_eq_nil_iff.mp has.symm, adds_nil] at h
      rw [h]
      rfl
  | cons arg rest ih =>
      rw [List.foldlM_cons, bind_eq_ok]
      refine ⟨?_, ?_⟩
      · rintro ⟨d₁, harg, hrest⟩
        obtain ⟨a, rfl, hreads⟩ := parseArg_eq_ok.mp harg
        obtain ⟨as, rfl, hadds⟩ := ih.mp hrest
        exact ⟨a :: as, rfl, adds_cons.mpr ⟨d₁, adds_singleton.mpr hreads, hadds⟩⟩
      · rintro ⟨as, has, hadds⟩
        cases as with
        | nil => cases has
        | cons a as =>
            obtain ⟨rfl, rfl⟩ := List.cons.inj has
            obtain ⟨d₁, hreads, hadds⟩ := adds_cons.mp hadds
            exact ⟨d₁, parseArg_eq_ok.mpr ⟨a, rfl, adds_singleton.mp hreads⟩,
              ih.mpr ⟨as, rfl, hadds⟩⟩

/-! ## Validation -/

/-- A flag and a list that exclude each other, one of which is there, pass both checks. -/
theorem nil_iff_free {free : Bool} {l : List Str} (h : free = true ↔ l = []) :
    (free && !l.isEmpty) = false ∧ (!free && l.isEmpty) = false := by
  cases free <;> cases l <;> simp_all

theorem validate_of_validated (h : Validated d) : d.validate = ok () := by
  have hhost := nil_iff_free (h.dimension .host)
  have hmethod := nil_iff_free (h.dimension .method)
  have hpath := nil_iff_free (h.dimension .path)
  simp only [isFree, allowed] at hhost hmethod hpath
  have hsecret : d.secret.isNone = false := by
    rw [Option.isNone_eq_false_iff]
    exact h.secret
  have hmax : (d.maxExpires.any fun d => d.isZero || maxSigv4Expires.lt d) = false := by
    cases hm : d.maxExpires with
    | none => rfl
    | some m => exact Bool.or_eq_false_iff.mpr (h.maxExpires m hm)
  unfold validate validateIf
  rw [hsecret, hhost.1, hhost.2, hmethod.1, hmethod.2, hpath.1, hpath.2, hmax]
  rfl

theorem inWeek_iff {m : Duration} :
    InWeek m ↔ m.isZero = false ∧ maxSigv4Expires.lt m = false := by
  unfold InWeek
  rw [isZero_eq_false_iff, lt_eq_false_iff, maxSigv4Expires_nanoseconds]

/-! ## Parsing -/

/-- **What is parsed** is what the arguments stand for. -/
theorem parse_eq_ok_iff {args : List Str} : parse args = ok d ↔ Directs args d := by
  refine ⟨fun h => ?_, ?_⟩
  · cases args with
    | nil => cases h
    | cons first rest =>
        unfold parse at h
        obtain ⟨_, hempty, h⟩ := bind_eq_ok.mp h
        obtain ⟨_, hequals, h⟩ := bind_eq_ok.mp h
        obtain ⟨d', hread, h⟩ := bind_eq_ok.mp h
        obtain ⟨_, hvalid, h⟩ := bind_eq_ok.mp h
        obtain rfl := Outcome.ok.inj h
        obtain ⟨as, rfl, hadds⟩ := foldlM_parseArg_eq_ok.mp hread
        have hvalid := validate_eq_ok hvalid
        have hfree : ∀ dim, d'.isFree dim = true ↔ .free dim ∈ as := fun dim =>
          (hadds.isFree dim).trans (or_iff_right (by cases dim <;> exact Bool.false_ne_true))
        have hallowed : ∀ dim, d'.allowed dim = as.filterMap (Argument.allowed? dim) := fun dim =>
          (hadds.allowed dim).trans (by cases dim <;> rfl)
        have hkey : d'.accessKey = first.trim := hadds.accessKey
        refine ⟨first, as, rfl, {
          accessKey := hkey
          accessKey_ne := ?_
          usable := hadds.usable
          secret := hadds.secret
          secret_ne := Option.isSome_iff_ne_none.mp hvalid.secret
          enabled := hadds.enabled
          maxExpires := hadds.maxExpires
          inWeek := fun m hm => inWeek_iff.mpr (hvalid.maxExpires m hm)
          allowedHosts := hallowed .host
          allowedMethods := hallowed .method
          allowedPrefixes := hallowed .path
          allowAnyHost := hfree .host
          allowDefaultMethods := hfree .method
          allowAnyPrefix := hfree .path
          dimension := fun dim => ?_ }⟩
        · rw [hkey]
          refine ⟨isEmpty_eq_false.mp (exitIf_eq_ok.mp hempty), fun hmem => ?_⟩
          have hequals := exitIf_eq_ok.mp hequals
          unfold Str.contains at hequals
          rw [List.contains_iff_mem.mpr hmem] at hequals
          exact Bool.noConfusion hequals
        · rw [← hfree dim, ← hallowed dim]
          exact hvalid.dimension dim
  · rintro ⟨first, as, rfl, h⟩
    have hallowed : ∀ dim, d.allowed dim = as.filterMap (Argument.allowed? dim) := by
      intro dim
      cases dim with
      | host => exact h.allowedHosts
      | method => exact h.allowedMethods
      | path => exact h.allowedPrefixes
    have hfree : ∀ dim, d.isFree dim = true ↔ .free dim ∈ as := by
      intro dim
      cases dim with
      | host => exact h.allowAnyHost
      | method => exact h.allowDefaultMethods
      | path => exact h.allowAnyPrefix
    have hadds : Adds (start first.trim) as d := by
      refine ⟨h.accessKey, h.usable, h.secret, h.enabled, h.maxExpires, fun dim => ?_, fun dim => ?_⟩
      · rw [hallowed]
        cases dim <;> rfl
      · refine (hfree dim).trans (or_iff_right ?_).symm
        cases dim <;> exact Bool.false_ne_true
    have hvalid : Validated d := by
      refine ⟨Option.isSome_iff_ne_none.mpr h.secret_ne, fun dim => ?_, fun m hm => ?_⟩
      · rw [hfree, hallowed]
        exact h.dimension dim
      · exact inWeek_iff.mp (h.inWeek m hm)
    have hkey := h.accessKey_ne
    rw [h.accessKey] at hkey
    have hequals : first.trim.contains equals = false := by
      cases hc : first.trim.contains equals with
      | false => rfl
      | true => exact absurd (List.contains_iff_mem.mp hc) hkey.2
    unfold parse
    dsimp only
    rw [isEmpty_eq_false.mpr hkey.1, exitIf_false, ok_bind, hequals, exitIf_false, ok_bind,
      foldlM_parseArg_eq_ok.mpr ⟨as, rfl, hadds⟩, ok_bind, validate_of_validated hvalid, ok_bind]

/-! ## The secret -/

/-- `\n` or `\r`. -/
def isBreak (b : UInt8) : Bool := b == lf || b == cr

theorem isBreak_iff {b : UInt8} : isBreak b = true ↔ b = lf ∨ b = cr := by
  unfold isBreak
  rw [Bool.or_eq_true, beq_iff_eq, beq_iff_eq]

/-- The loop over the end of a file takes its line breaks away. -/
theorem trimNewlines_eq (raw : Bytes) :
    loop trimNewlinesBody (raw.length + 1) raw = ok (raw.rdropWhile isBreak) := by
  refine loop_eq (f := fun raw => ok (raw.rdropWhile isBreak)) (μ := List.length)
    (I := fun _ => True) ?_ (raw.length + 1) raw trivial (Nat.lt_succ_self _)
  intro raw _
  unfold trimNewlinesBody
  rcases List.eq_nil_or_concat' raw with rfl | ⟨init, b, rfl⟩
  · exact Or.inr (Or.inl ⟨[], rfl, rfl⟩)
  · dsimp only
    rw [List.getLast?_concat, Option.some_beq_some, Option.some_beq_some, List.dropLast_concat]
    cases hb : isBreak b with
    | true =>
        refine Or.inl ⟨init, if_pos hb, trivial, ?_, ?_⟩
        · rw [List.length_append, List.length_singleton]
          exact Nat.lt_succ_self _
        · rw [List.rdropWhile_concat_pos _ _ _ hb]
    | false =>
        have hb' : ¬ isBreak b = true := by
          rw [hb]
          exact Bool.false_ne_true
        refine Or.inr (Or.inl ⟨init ++ [b], if_neg hb', ?_⟩)
        rw [List.rdropWhile_concat_neg _ _ _ hb']

/-- What is left of a file is what stands before the line breaks at its end. -/
theorem rdropWhile_isBreak_eq_iff {raw secret : Bytes} :
    raw.rdropWhile isBreak = secret ↔ ∃ breaks, raw = secret ++ breaks
      ∧ (∀ b ∈ breaks, b = lf ∨ b = cr) ∧ ∀ b, secret.getLast? = some b → b ≠ lf ∧ b ≠ cr := by
  refine ⟨?_, ?_⟩
  · rintro rfl
    refine ⟨raw.rtakeWhile isBreak, List.rdropWhile_append_rtakeWhile.symm,
      fun b hb => isBreak_iff.mp (List.mem_rtakeWhile_imp hb), fun b hb => ?_⟩
    have hne : raw.rdropWhile isBreak ≠ [] := by
      intro hnil
      rw [hnil] at hb
      cases hb
    have hlast := List.rdropWhile_last_not isBreak raw hne
    rw [List.getLast?_eq_some_getLast hne] at hb
    rw [Option.some.inj hb, isBreak_iff, not_or] at hlast
    exact hlast
  · rintro ⟨breaks, rfl, hbreaks, hlast⟩
    induction breaks using List.reverseRecOn with
    | nil =>
        rw [List.append_nil, List.rdropWhile_eq_self_iff]
        intro hne
        have h := hlast _ (List.getLast?_eq_some_getLast hne)
        rw [isBreak_iff, not_or]
        exact h
    | append_singleton breaks b ih =>
        have hb := isBreak_iff.mpr (hbreaks b (by simp))
        rw [← List.append_assoc, List.rdropWhile_concat_pos _ _ _ hb]
        exact ih fun c hc => hbreaks c (List.mem_append_left _ hc)

theorem readSecret_eq_ok {fs : FileSystem} {source : SecretSource} {secret : Str} :
    d.readSecret fs source = ok secret ↔ Holding fs source secret := by
  cases source with
  | literal text =>
      refine ⟨fun h => ?_, ?_⟩
      · rw [Outcome.ok.inj h]
        exact .literal secret
      · rintro ⟨⟩
        rfl
  | file path =>
      unfold readSecret
      dsimp only
      cases hread : fs.read path with
      | inl err =>
          refine ⟨fun h => absurd h (by simp), ?_⟩
          rintro (_ | ⟨hraw, _, _, _⟩)
          rw [hread] at hraw
          cases hraw
      | inr raw =>
          dsimp only
          rw [trimNewlines_eq, ok_bind, ofOption_eq_ok, Str.fromUtf8_eq_some, eq_comm,
            rdropWhile_isBreak_eq_iff]
          refine ⟨?_, ?_⟩
          · rintro ⟨breaks, hraw, hbreaks, hlast⟩
            exact .file hread hraw hbreaks hlast
          · rintro (_ | ⟨hread', hraw, hbreaks, hlast⟩)
            rw [hread] at hread'
            exact ⟨_, (Sum.inr.inj hread').trans hraw, hbreaks, hlast⟩

/-- **What is resolved** is what the directive stands for. -/
theorem resolve_eq_ok_iff {fs : FileSystem} {c : Credential} :
    d.resolve fs = ok c ↔ Resolves fs d c := by
  refine ⟨fun h => ?_, fun h => ?_⟩
  · obtain ⟨secret, hload, rfl⟩ := resolve_eq_ok h
    unfold loadSecret at hload
    obtain ⟨source, hsource, hload⟩ := bind_eq_ok.mp hload
    obtain ⟨text, htext, hload⟩ := bind_eq_ok.mp hload
    obtain ⟨_, hempty, hload⟩ := bind_eq_ok.mp hload
    obtain rfl := Outcome.ok.inj hload
    refine ⟨⟨source, ?_, readSecret_eq_ok.mp htext, isEmpty_eq_false.mp (exitIf_eq_ok.mp hempty)⟩,
      rfl⟩
    cases hs : d.secret with
    | none =>
        rw [hs] at hsource
        cases hsource
    | some s =>
        rw [hs, expect_some] at hsource
        rw [Outcome.ok.inj hsource]
  · obtain ⟨source, hsource, hholding, hne⟩ := h.secretKey
    unfold resolve loadSecret
    rw [hsource, expect_some, ok_bind, readSecret_eq_ok.mpr hholding, ok_bind,
      isEmpty_eq_false.mpr hne, exitIf_false, ok_bind, ok_bind]
    exact congrArg ok h.rest.symm

/-! ## No panic -/

theorem setSecret_safe (source : SecretSource) : Safe (d.setSecret source) :=
  ends_ite (fun _ => trivial) fun _ => trivial

theorem parseOnOff_safe (value : Str) : Safe (parseOnOff value) :=
  ends_ite (fun _ => trivial) fun _ => ends_ite (fun _ => trivial) fun _ => trivial

theorem parseDuration_safe (value : Str) : Safe (parseDuration value) := by
  by_cases hw : ∃ w : Written, w.text = value.bytes
  · obtain ⟨w, hw⟩ := hw
    rw [parseDuration_text hw]
    exact ends_ite (fun _ => trivial) fun _ => trivial
  · obtain ⟨e, he⟩ := parseDuration_not_text hw
    rw [he]
    trivial

theorem parseKeyValue_safe (key value : Str) : Safe (d.parseKeyValue key value) := by
  unfold parseKeyValue
  refine ends_ite (fun _ => setSecret_safe _) fun _ => ?_
  refine ends_ite (fun _ => setSecret_safe _) fun _ => ?_
  refine ends_ite (fun _ => ?_) fun _ => ?_
  · refine ends_ite (fun _ => trivial) fun _ => ?_
    exact ends_bind (parseOnOff_safe value) fun _ _ => trivial
  refine ends_ite (fun _ => ?_) fun _ => ?_
  · refine ends_ite (fun _ => trivial) fun _ => ?_
    exact ends_bind (parseDuration_safe value) fun _ _ => trivial
  exact ends_ite (fun _ => ends_ite (fun _ => trivial) fun _ => trivial) fun _ => trivial

theorem parseArg_safe (arg : Str) : Safe (d.parseArg arg) := by
  unfold parseArg
  refine ends_ite (fun _ => trivial) fun _ => ?_
  refine ends_ite (fun _ => trivial) fun _ => ?_
  refine ends_ite (fun _ => trivial) fun _ => ?_
  split
  · trivial
  · exact ends_ite (fun _ => trivial) fun _ => parseKeyValue_safe _ _

theorem validate_safe : Safe d.validate := by
  unfold validate
  have hcheck : ∀ c message, Safe (d.validateIf c message) := fun c _ => ends_exitIf trivial c
  refine ends_bind (hcheck _ _) fun _ _ => ?_
  refine ends_bind (hcheck _ _) fun _ _ => ?_
  refine ends_bind (hcheck _ _) fun _ _ => ?_
  refine ends_bind (hcheck _ _) fun _ _ => ?_
  refine ends_bind (hcheck _ _) fun _ _ => ?_
  refine ends_bind (hcheck _ _) fun _ _ => ?_
  exact ends_bind (hcheck _ _) fun _ _ => hcheck _ _

theorem parse_safe (args : List Str) : Safe (parse args) := by
  cases args with
  | nil => trivial
  | cons first rest =>
      refine ends_bind (ends_exitIf trivial _) fun _ _ => ?_
      refine ends_bind (ends_exitIf trivial _) fun _ _ => ?_
      refine ends_bind (ends_foldlM rest _ fun d arg _ => parseArg_safe arg) fun _ _ => ?_
      exact ends_bind validate_safe fun _ _ => trivial

theorem readSecret_safe (fs : FileSystem) (source : SecretSource) :
    Safe (d.readSecret fs source) := by
  cases source with
  | literal _ => trivial
  | file path =>
      unfold readSecret
      dsimp only
      cases fs.read path with
      | inl _ => trivial
      | inr raw =>
          dsimp only
          rw [trimNewlines_eq, ok_bind]
          exact ends_ofOption trivial _

/-- The secret that `resolve` expects is there after `validate`. -/
theorem resolve_safe (h : d.secret ≠ none) (fs : FileSystem) : Safe (d.resolve fs) := by
  obtain ⟨source, hsource⟩ := Option.ne_none_iff_exists'.mp h
  unfold resolve loadSecret
  rw [hsource, expect_some, ok_bind]
  refine ends_bind ?_ fun _ _ => trivial
  refine ends_bind (readSecret_safe fs source) fun _ _ => ?_
  exact ends_bind (ends_exitIf trivial _) fun _ _ => trivial

end CredentialDirective

open CredentialDirective

/--
**What a directive accepts.** Its arguments are accepted exactly if they stand for a directive,
which is the one they are read as, and that is resolved exactly if the secret it names can be had.
Neither panics, whatever the arguments are and whatever the file system answers.
-/
theorem directive_exact (fs : FileSystem) (args : List Str) :
    Safe (parse args) ∧ (∀ d, parse args = ok d ↔ Directs args d)
      ∧ ∀ d, Directs args d →
        Safe (d.resolve fs) ∧ ∀ c, d.resolve fs = ok c ↔ Resolves fs d c := by
  refine ⟨parse_safe args, fun d => parse_eq_ok_iff, fun d hdirects => ⟨?_, fun c => ?_⟩⟩
  · obtain ⟨_, _, _, hsaid⟩ := hdirects
    exact resolve_safe hsaid.secret_ne fs
  · exact resolve_eq_ok_iff

/-- The arguments of the sample, and what they stand for. -/
theorem directive_exact_sample :
    Directs sampleArguments sampleDirective
      ∧ ∃ c, Resolves noFiles sampleDirective c ∧ c.secretKey = .lit "test=secret" := by
  obtain ⟨_, hparse, hresolve⟩ := directive_exact noFiles sampleArguments
  have hdirects := (hparse sampleDirective).mp (by rfl)
  exact ⟨hdirects, _, ((hresolve _ hdirects).2 _).mp rfl, rfl⟩

end SigV4
