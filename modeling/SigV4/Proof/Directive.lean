import SigV4.ModuleConfig.Credential
import SigV4.Proof.Config
import SigV4.Spec.Arguments

/-!
# What a directive reads

`Reads` says what one argument does to the directive that is being read; it is all that
`parse_arg` can do. `ReadFrom` is the invariant of the loop over the arguments: each field
of the directive is what the arguments so far say.
-/

namespace SigV4

open Outcome Ascii Spec

namespace CredentialDirective

/-- The flag of a dimension has been read. -/
def isFree (d : CredentialDirective) : Dimension → Bool
  | .host => d.allowAnyHost
  | .method => d.allowDefaultMethods
  | .path => d.allowAnyPrefix

/-- The values that have been read for a dimension. -/
def allowed (d : CredentialDirective) : Dimension → List Str
  | .host => d.allowedHosts
  | .method => d.allowedMethods
  | .path => d.allowedPrefixes

def setFree (d : CredentialDirective) : Dimension → CredentialDirective
  | .host => { d with allowAnyHost := true }
  | .method => { d with allowDefaultMethods := true }
  | .path => { d with allowAnyPrefix := true }

def push (d : CredentialDirective) (value : Str) : Dimension → CredentialDirective
  | .host => { d with allowedHosts := d.allowedHosts ++ [value] }
  | .method => { d with allowedMethods := d.allowedMethods ++ [value] }
  | .path => { d with allowedPrefixes := d.allowedPrefixes ++ [value] }

/-- What one argument does. -/
inductive Reads (d : CredentialDirective) : Argument → CredentialDirective → Prop where
  | free (dim : Dimension) : Reads d (.free dim) (d.setFree dim)
  | secretKeyFile {value : Str} (hvalue : value.isEmpty = false) (hnone : d.secret = none) :
      Reads d (.keyed .secretKeyFile value) { d with secret := some (.file value) }
  | secretKey {value : Str} (hvalue : value.isEmpty = false) (hnone : d.secret = none) :
      Reads d (.keyed .secretKey value) { d with secret := some (.literal value) }
  | enabled {value : Str} {b : Bool} (hnone : d.enabled = none) (hvalue : parseOnOff value = ok b) :
      Reads d (.keyed .enabled value) { d with enabled := some b }
  | maxExpires {value : Str} {m : Duration} (hnone : d.maxExpires = none)
      (hvalue : parseDuration value = ok m) :
      Reads d (.keyed .maxExpires value) { d with maxExpires := some m }
  | allowed (dim : Dimension) {value : Str} (hvalue : value.trim.isEmpty = false) :
      Reads d (.keyed (.allowed dim) value) (d.push value dim)

variable {d d' : CredentialDirective}

theorem setSecret_eq_ok {source : SecretSource} :
    d.setSecret source = ok d' ↔ d.secret = none ∧ { d with secret := some source } = d' := by
  unfold setSecret
  cases d.secret with
  | none => simp
  | some _ => simp

/-- What each key does with its value. -/
def readKey (d : CredentialDirective) (value : Str) :
    Key → Outcome DirectiveError CredentialDirective
  | .secretKeyFile => d.setSecret (.file value)
  | .secretKey => d.setSecret (.literal value)
  | .enabled =>
    if d.enabled.isSome then exit ⟨[.text "duplicate \"enabled\" argument"]⟩
    else do
      let enabled ← parseOnOff value
      ok { d with enabled := some enabled }
  | .maxExpires =>
    if d.maxExpires.isSome then exit ⟨[.text "duplicate \"max_expires\" argument"]⟩
    else do
      let maxExpires ← parseDuration value
      ok { d with maxExpires := some maxExpires }
  | .allowed dim =>
    if value.trim.isEmpty then
      exit ⟨[.debug (Key.allowed dim).text, .text " has a blank value"]⟩
    else ok (d.push value dim)

theorem parseKeyValue_text (value : Str) (k : Key) :
    d.parseKeyValue k.text value = d.readKey value k := by
  rcases k with (_ | _ | _) | _ | _ | _ | _ <;> rfl

theorem parseKeyValue_unknown {key value : Str} (h : ∀ k : Key, key ≠ k.text) :
    d.parseKeyValue key value = exit ⟨[.text "unknown argument ", .debug key]⟩ := by
  have hne : ∀ k : Key, (key == k.text) = false := fun k => beq_eq_false_iff_ne.mpr (h k)
  have h1 : (key == .lit "secret_key_file") = false := hne .secretKeyFile
  have h2 : (key == .lit "secret_key") = false := hne .secretKey
  have h3 : (key == .lit "enabled") = false := hne .enabled
  have h4 : (key == .lit "max_expires") = false := hne .maxExpires
  have h5 : (key == .lit "allowed_host") = false := hne (.allowed .host)
  have h6 : (key == .lit "allowed_method") = false := hne (.allowed .method)
  have h7 : (key == .lit "allowed_prefix") = false := hne (.allowed .path)
  unfold parseKeyValue
  rw [h1, h2, h3, h4, h5, h6, h7]
  rfl

/-- **What a key and its value do** is what `Reads` says. -/
theorem readKey_eq_ok {value : Str} (hvalue : value.isEmpty = false) {k : Key} :
    d.readKey value k = ok d' ↔ Reads d (.keyed k value) d' := by
  refine ⟨?_, ?_⟩
  · intro h
    cases k with
    | secretKeyFile =>
        obtain ⟨hnone, rfl⟩ := setSecret_eq_ok.mp h
        exact .secretKeyFile hvalue hnone
    | secretKey =>
        obtain ⟨hnone, rfl⟩ := setSecret_eq_ok.mp h
        exact .secretKey hvalue hnone
    | enabled =>
        simp only [readKey] at h
        cases hnone : d.enabled with
        | some _ => simp [hnone] at h
        | none =>
            rw [hnone, if_neg (by simp)] at h
            obtain ⟨b, hb, h⟩ := bind_eq_ok.mp h
            rw [← Outcome.ok.inj h]
            exact .enabled hnone hb
    | maxExpires =>
        simp only [readKey] at h
        cases hnone : d.maxExpires with
        | some _ => simp [hnone] at h
        | none =>
            rw [hnone, if_neg (by simp)] at h
            obtain ⟨m, hm, h⟩ := bind_eq_ok.mp h
            rw [← Outcome.ok.inj h]
            exact .maxExpires hnone hm
    | allowed dim =>
        simp only [readKey] at h
        cases hblank : value.trim.isEmpty with
        | true => simp [hblank] at h
        | false =>
            rw [hblank, if_neg Bool.false_ne_true] at h
            rw [← Outcome.ok.inj h]
            exact .allowed dim hblank
  · intro h
    cases h with
    | secretKeyFile _ hnone => exact setSecret_eq_ok.mpr ⟨hnone, rfl⟩
    | secretKey _ hnone => exact setSecret_eq_ok.mpr ⟨hnone, rfl⟩
    | enabled hnone hb => unfold readKey; rw [hnone, hb]; rfl
    | maxExpires hnone hm => unfold readKey; rw [hnone, hm]; rfl
    | allowed dim hblank => unfold readKey; rw [hblank]; rfl

theorem parseArg_flag (dim : Dimension) : d.parseArg dim.flag = ok (d.setFree dim) := by
  cases dim <;> rfl

theorem parseArg_of_ne_flag {arg : Str} (h : ∀ dim : Dimension, arg ≠ dim.flag) :
    d.parseArg arg =
      match arg.splitOnce equals equals_lt with
      | none => exit ⟨[.text "unknown flag ", .debug arg, .text ("; expected key=value or one of "
          ++ "allow_any_host, allow_any_prefix, allow_default_methods")]⟩
      | some (key, value) =>
        if value.isEmpty then exit ⟨[.debug key, .text " has an empty value"]⟩
        else d.parseKeyValue key value := by
  have h1 : (arg == .lit "allow_any_host") = false := beq_eq_false_iff_ne.mpr (h .host)
  have h2 : (arg == .lit "allow_any_prefix") = false := beq_eq_false_iff_ne.mpr (h .path)
  have h3 : (arg == .lit "allow_default_methods") = false := beq_eq_false_iff_ne.mpr (h .method)
  unfold parseArg
  rw [h1, h2, h3]
  rfl

theorem parseArg_keyed (k : Key) (value : Str) :
    d.parseArg (Argument.keyed k value).text
      = if value.isEmpty then exit ⟨[.debug k.text, .text " has an empty value"]⟩
        else d.readKey value k := by
  have hne : ∀ dim : Dimension, (Argument.keyed k value).text ≠ dim.flag := by
    intro dim h
    exact Argument.noConfusion (Argument.text_inj (b := .free dim) h)
  have hsplit := Argument.splitOnce_keyed k value
  rw [parseArg_of_ne_flag hne, hsplit]
  dsimp only
  rw [parseKeyValue_text]

theorem isEmpty_of_parseOnOff {value : Str} {b : Bool} (h : parseOnOff value = ok b) :
    value.isEmpty = false := by
  cases he : value.isEmpty with
  | false => rfl
  | true =>
      rw [show value = .empty from Str.ext (Str.isEmpty_iff.mp he),
        show parseOnOff .empty = exit _ from rfl] at h
      exact absurd h (by simp)

theorem isEmpty_of_parseDuration {value : Str} {m : Duration} (h : parseDuration value = ok m) :
    value.isEmpty = false := by
  cases he : value.isEmpty with
  | false => rfl
  | true =>
      unfold parseDuration at h
      rw [he, if_pos rfl] at h
      exact absurd h (by simp)

theorem isEmpty_of_trim {value : Str} (h : value.trim.isEmpty = false) :
    value.isEmpty = false := by
  cases he : value.isEmpty with
  | false => rfl
  | true =>
      rw [show value = .empty from Str.ext (Str.isEmpty_iff.mp he)] at h
      exact absurd h (by decide)

/-- A value that is read is not empty. -/
theorem Reads.value_ne {k : Key} {value : Str} (h : Reads d (.keyed k value) d') :
    value.isEmpty = false := by
  cases h with
  | secretKeyFile hvalue _ => exact hvalue
  | secretKey hvalue _ => exact hvalue
  | enabled _ hvalue => exact isEmpty_of_parseOnOff hvalue
  | maxExpires _ hvalue => exact isEmpty_of_parseDuration hvalue
  | allowed _ hvalue => exact isEmpty_of_trim hvalue

/-- **What an argument does** is what `Reads` says. -/
theorem parseArg_eq_ok {arg : Str} :
    d.parseArg arg = ok d' ↔ ∃ a : Argument, arg = a.text ∧ Reads d a d' := by
  refine ⟨?_, ?_⟩
  · intro h
    by_cases hflag : ∃ dim : Dimension, arg = dim.flag
    · obtain ⟨dim, rfl⟩ := hflag
      rw [parseArg_flag] at h
      rw [← Outcome.ok.inj h]
      exact ⟨.free dim, rfl, .free dim⟩
    · rw [parseArg_of_ne_flag (fun dim hd => hflag ⟨dim, hd⟩)] at h
      cases hsplit : arg.splitOnce equals equals_lt with
      | none => rw [hsplit] at h; exact absurd h (by simp)
      | some kv =>
          obtain ⟨key, value⟩ := kv
          obtain ⟨hbytes, _⟩ := Str.splitOnce_eq_some.mp hsplit
          rw [hsplit] at h
          dsimp only at h
          cases hvalue : value.isEmpty with
          | true => rw [hvalue, if_pos rfl] at h; exact absurd h (by simp)
          | false =>
              rw [hvalue, if_neg Bool.false_ne_true] at h
              by_cases hkey : ∃ k : Key, key = k.text
              · obtain ⟨k, rfl⟩ := hkey
                rw [parseKeyValue_text] at h
                refine ⟨.keyed k value, Str.ext ?_, (readKey_eq_ok hvalue).mp h⟩
                rw [hbytes, Argument.keyed_text_bytes]
              · rw [parseKeyValue_unknown (fun k hk => hkey ⟨k, hk⟩)] at h
                exact absurd h (by simp)
  · intro hc
    obtain ⟨a, rfl, hr⟩ := hc
    cases a with
    | free dim =>
        cases hr
        exact parseArg_flag dim
    | keyed k value =>
        rw [parseArg_keyed, hr.value_ne, if_neg Bool.false_ne_true]
        exact (readKey_eq_ok hr.value_ne).mpr hr

/-! ## What one argument changes -/

section Step

variable {a : Argument}

theorem Reads.accessKey (hr : Reads d a d') : d'.accessKey = d.accessKey := by
  cases hr with
  | free dim => cases dim <;> rfl
  | allowed dim => cases dim <;> rfl
  | _ => rfl

theorem Reads.isFree_iff (hr : Reads d a d') (dim : Dimension) :
    d'.isFree dim = true ↔ d.isFree dim = true ∨ .free dim = a := by
  cases hr with
  | free other => cases dim <;> cases other <;> simp [isFree, setFree]
  | allowed other => cases dim <;> cases other <;> simp [isFree, push]
  | _ => cases dim <;> simp [isFree]

theorem Reads.mem_allowed_iff (hr : Reads d a d') (dim : Dimension) (x : Str) :
    x ∈ d'.allowed dim ↔ x ∈ d.allowed dim ∨ .keyed (.allowed dim) x = a := by
  cases hr with
  | free other => cases dim <;> cases other <;> simp [CredentialDirective.allowed, setFree]
  | allowed other => cases dim <;> cases other <;> simp [CredentialDirective.allowed, push]
  | _ => cases dim <;> simp [CredentialDirective.allowed]

theorem Reads.nonblank (hr : Reads d a d') {dim : Dimension} {x : Str}
    (ha : .keyed (.allowed dim) x = a) : x.trim.isEmpty = false := by
  subst ha
  cases hr with
  | allowed _ hvalue => exact hvalue

theorem parseOnOff_eq_ok_false {value : Str} :
    parseOnOff value = ok false ↔ value = .lit "off" := by
  refine ⟨?_, ?_⟩
  · intro h
    unfold parseOnOff at h
    split at h
    · exact absurd (Outcome.ok.inj h) (by simp)
    · split at h
      · rename_i hoff
        exact eq_of_beq hoff
      · exact absurd h (by simp)
  · rintro rfl
    rfl

theorem Reads.disabled_iff (hr : Reads d a d') :
    d'.enabled = some false
      ↔ d.enabled = some false ∨ .keyed .enabled (.lit "off") = a := by
  cases hr with
  | free dim => cases dim <;> simp [setFree]
  | allowed dim => cases dim <;> simp [push]
  | @enabled value b hnone hvalue =>
      refine ⟨?_, ?_⟩
      · intro hb
        obtain rfl : b = false := Option.some.inj hb
        rw [parseOnOff_eq_ok_false.mp hvalue]
        exact Or.inr rfl
      · intro hc
        rcases hc with hb | ha
        · rw [hnone] at hb
          exact absurd hb (by simp)
        · obtain ⟨_, hoff⟩ := Argument.keyed.inj ha
          rw [← hoff, parseOnOff_eq_ok_false.mpr rfl] at hvalue
          rw [Outcome.ok.inj hvalue]
  | _ => simp

/-- An expiry is read once at most. -/
theorem Reads.maxExpires_cases (hr : Reads d a d') :
    (d'.maxExpires = d.maxExpires ∧ ∀ value, .keyed .maxExpires value ≠ a)
      ∨ (d.maxExpires = none ∧ ∃ value m, a = .keyed .maxExpires value
          ∧ parseDuration value = ok m ∧ d'.maxExpires = some m) := by
  cases hr with
  | free dim => cases dim <;> exact Or.inl ⟨rfl, fun _ h => Argument.noConfusion h⟩
  | allowed dim =>
      cases dim <;> exact Or.inl ⟨rfl, fun _ h => Key.noConfusion (Argument.keyed.inj h).1⟩
  | maxExpires hnone hvalue => exact Or.inr ⟨hnone, _, _, rfl, hvalue, rfl⟩
  | _ => exact Or.inl ⟨rfl, fun _ h => Key.noConfusion (Argument.keyed.inj h).1⟩

end Step

/-! ## What all of them say -/

/-- Each field is what the arguments so far say. -/
structure ReadFrom (accessKey : Str) (pre : List Str) (d : CredentialDirective) : Prop where
  accessKey : d.accessKey = accessKey
  free : ∀ dim, d.isFree dim = true ↔ Given pre (.free dim)
  allowed : ∀ dim x, x ∈ d.allowed dim ↔ Given pre (.keyed (.allowed dim) x)
  nonblank : ∀ dim, ∀ x ∈ d.allowed dim, x.trim.isEmpty = false
  disabled : d.enabled = some false ↔ Given pre (.keyed .enabled (.lit "off"))
  /-- Every expiry that is given is the one that is kept. -/
  maxExpires : ∀ value, Given pre (.keyed .maxExpires value) →
    ∃ m, parseDuration value = ok m ∧ d.maxExpires = some m
  maxExpires_given : ∀ m, d.maxExpires = some m → ∃ value, Given pre (.keyed .maxExpires value)

theorem readFrom_start (accessKey : Str) : ReadFrom accessKey [] (start accessKey) where
  accessKey := rfl
  free dim := by cases dim <;> simp [start, isFree, Given]
  allowed dim x := by cases dim <;> simp [start, CredentialDirective.allowed, Given]
  nonblank dim x hx := by cases dim <;> simp [start, CredentialDirective.allowed] at hx
  disabled := by simp [start, Given]
  maxExpires value h := absurd h List.not_mem_nil
  maxExpires_given m h := by simp [start] at h

theorem readFrom_step {accessKey : Str} {pre : List Str} {a : Argument}
    (h : ReadFrom accessKey pre d) (hr : Reads d a d') :
    ReadFrom accessKey (pre ++ [a.text]) d' where
  accessKey := hr.accessKey.trans h.accessKey
  free dim := by rw [given_append_singleton, ← h.free dim, hr.isFree_iff]
  allowed dim x := by rw [given_append_singleton, ← h.allowed dim x, hr.mem_allowed_iff]
  nonblank dim x hx := by
    rcases (hr.mem_allowed_iff dim x).mp hx with hx | ha
    · exact h.nonblank dim x hx
    · exact hr.nonblank ha
  disabled := by rw [given_append_singleton, ← h.disabled, hr.disabled_iff]
  maxExpires value hgiven := by
    rcases hr.maxExpires_cases with ⟨hsame, hne⟩ | ⟨hnone, value', m, rfl, hm, hsome⟩
    · rcases given_append_singleton.mp hgiven with hgiven | ha
      · rw [hsame]
        exact h.maxExpires value hgiven
      · exact absurd ha (hne value)
    · rcases given_append_singleton.mp hgiven with hgiven | ha
      · -- an earlier expiry would have been kept
        obtain ⟨m', _, hm'⟩ := h.maxExpires value hgiven
        rw [hnone] at hm'
        exact absurd hm' (by simp)
      · obtain ⟨_, rfl⟩ := Argument.keyed.inj ha
        exact ⟨m, hm, hsome⟩
  maxExpires_given m hm := by
    rcases hr.maxExpires_cases with ⟨hsame, _⟩ | ⟨_, value, _, rfl, _, _⟩
    · rw [hsame] at hm
      obtain ⟨value, hgiven⟩ := h.maxExpires_given m hm
      exact ⟨value, given_append_singleton.mpr (Or.inl hgiven)⟩
    · exact ⟨value, given_append_singleton.mpr (Or.inr rfl)⟩

/-- **The loop over the arguments** reads what they say. -/
theorem readFrom_foldlM {accessKey : Str} {rest : List Str}
    (h : rest.foldlM parseArg (start accessKey) = ok d) : ReadFrom accessKey rest d := by
  refine foldlM_inv (P := ReadFrom accessKey) (readFrom_start accessKey) ?_ h
  intro pre arg d₁ d₂ hP hstep
  obtain ⟨a, rfl, hr⟩ := parseArg_eq_ok.mp hstep
  exact readFrom_step hP hr

/-! ## Validation -/

/-- A directive that can be resolved. -/
structure Validated (d : CredentialDirective) : Prop where
  secret : d.secret.isSome = true
  /-- In each dimension either the flag is set or there is a list. -/
  dimension : ∀ dim, d.isFree dim = true ↔ d.allowed dim = []
  maxExpires : ∀ m, d.maxExpires = some m →
    m.isZero = false ∧ maxSigv4Expires.lt m = false

theorem validateIf_eq_ok {c : Bool} {message : String} {u : Unit} :
    d.validateIf c message = ok u ↔ c = false := exitIf_eq_ok

/-- A flag and a list exclude each other, and one of them is there. -/
theorem free_iff_nil {free : Bool} {l : List Str} (h1 : (free && !l.isEmpty) = false)
    (h2 : (!free && l.isEmpty) = false) : free = true ↔ l = [] := by
  cases free <;> cases l <;> simp_all

theorem validate_eq_ok {u : Unit} (h : d.validate = ok u) : Validated d := by
  unfold validate at h
  obtain ⟨_, hsecret, h⟩ := bind_eq_ok.mp h
  obtain ⟨_, hhost, h⟩ := bind_eq_ok.mp h
  obtain ⟨_, hhost', h⟩ := bind_eq_ok.mp h
  obtain ⟨_, hpath, h⟩ := bind_eq_ok.mp h
  obtain ⟨_, hpath', h⟩ := bind_eq_ok.mp h
  obtain ⟨_, hmethod, h⟩ := bind_eq_ok.mp h
  obtain ⟨_, hmethod', hmax⟩ := bind_eq_ok.mp h
  rw [validateIf_eq_ok] at hsecret hhost hhost' hpath hpath' hmethod hmethod' hmax
  refine ⟨by simpa using hsecret, fun dim => ?_, fun m hm => ?_⟩
  · cases dim with
    | host => exact free_iff_nil hhost hhost'
    | method => exact free_iff_nil hmethod hmethod'
    | path => exact free_iff_nil hpath hpath'
  · rw [hm, Option.any_some, Bool.or_eq_false_iff] at hmax
    exact hmax

/-- **What is parsed** is what the arguments say, and valid. -/
theorem parse_eq_ok {args : List Str} (h : parse args = ok d) :
    ∃ first rest, args = first :: rest ∧ first.trim.isEmpty = false
      ∧ ReadFrom first.trim rest d ∧ Validated d := by
  cases args with
  | nil => exact absurd h (by simp [parse])
  | cons first rest =>
      unfold parse at h
      obtain ⟨_, hempty, h⟩ := bind_eq_ok.mp h
      obtain ⟨_, _, h⟩ := bind_eq_ok.mp h
      obtain ⟨d₀, hread, h⟩ := bind_eq_ok.mp h
      obtain ⟨_, hvalid, h⟩ := bind_eq_ok.mp h
      obtain rfl := Outcome.ok.inj h
      exact ⟨first, rest, rfl, exitIf_eq_ok.mp hempty, readFrom_foldlM hread,
        validate_eq_ok hvalid⟩

/-- **What is resolved** is what was parsed, with its secret. -/
theorem resolve_eq_ok {fs : FileSystem} {credential : Credential}
    (h : d.resolve fs = ok credential) :
    ∃ secretKey, d.loadSecret fs = ok secretKey ∧ credential = {
      accessKey := d.accessKey
      secretKey
      enabled := d.enabled.getD true
      maxExpires := d.maxExpires.getD (.fromSecs 0)
      allowedHosts := d.allowedHosts
      allowedMethods := d.allowedMethods
      allowedPrefixes := d.allowedPrefixes.map Str.bytes } := by
  obtain ⟨secretKey, hsecret, h⟩ := bind_eq_ok.mp h
  exact ⟨secretKey, hsecret, (Outcome.ok.inj h).symm⟩

end CredentialDirective

end SigV4
