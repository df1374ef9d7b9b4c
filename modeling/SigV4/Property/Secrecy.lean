import SigV4.Lib.Related
import SigV4.Property.Configuration
import SigV4.Property.Verdict

/-!
# Loading tells nothing of a secret

Secrets stand in the configuration and in files, and `nginx -t` prints what it finds wrong with
either. Two configurations that differ in the secrets they hold are loaded alike: where one is
refused the other is, with the same message, and where they load the settings, the modes and the
credentials are the same but for the secrets. A secret is masked by any other that is not empty.
-/

namespace SigV4

open Outcome Ascii Spec CredentialDirective

/-! ## Configurations that differ in their secrets -/

/-- Two arguments: the same, or `secret_key=` with one secret and with another. -/
def Masked (arg arg' : Bytes) : Prop :=
  arg = arg' ∨ ∃ value value' : Str, value.bytes ≠ [] ∧ value'.bytes ≠ []
    ∧ arg = (Argument.keyed .secretKey value).text.bytes
    ∧ arg' = (Argument.keyed .secretKey value').text.bytes

/-- The arguments of a credential, after one access key. -/
inductive MaskedArgs : List Bytes → List Bytes → Prop where
  | nil : MaskedArgs [] []
  | cons (first : Bytes) {rest rest' : List Bytes} : List.Forall₂ Masked rest rest' →
      MaskedArgs (first :: rest) (first :: rest')

/-- Two blocks that differ in the secrets of their credentials. -/
inductive MaskedBlock : Block → Block → Prop where
  | done : MaskedBlock .done .done
  | directive (command : Command) (args : List Bytes) {rest rest' : Block} :
      MaskedBlock rest rest' →
      MaskedBlock (.directive command args rest) (.directive command args rest')
  | credential {args args' : List Bytes} {rest rest' : Block} : MaskedArgs args args' →
      MaskedBlock rest rest' →
      MaskedBlock (.directive .credential args rest) (.directive .credential args' rest')
  | block {inner inner' rest rest' : Block} : MaskedBlock inner inner' → MaskedBlock rest rest' →
      MaskedBlock (.block inner rest) (.block inner' rest')

/-- Two file systems that differ in the secrets of their files. -/
def MaskedFiles (fs fs' : FileSystem) : Prop :=
  ∀ path, fs.read path = fs'.read path ∨ ∃ secret secret', secret.bytes ≠ [] ∧ secret'.bytes ≠ []
    ∧ Holding fs (.file path) secret ∧ Holding fs' (.file path) secret'

/-- Two sources, neither an empty text. -/
inductive SourcesAlike : SecretSource → SecretSource → Prop where
  | file (path : Str) : SourcesAlike (.file path) (.file path)
  | literal {secret secret' : Str} : secret.bytes ≠ [] → secret'.bytes ≠ [] →
      SourcesAlike (.literal secret) (.literal secret')

/-- Two directives that differ in their secrets. -/
def DirectivesAlike (d d' : CredentialDirective) : Prop :=
  ∃ secret', d' = { d with secret := secret' } ∧ Option.Rel SourcesAlike d.secret secret'

/-- Two credentials that differ in their secrets, neither empty. -/
structure CredentialsAlike (c c' : Credential) : Prop where
  rest : SameButSecret c c'
  secretKey : c.secretKey.bytes ≠ []
  secretKey' : c'.secretKey.bytes ≠ []

variable {C : Crypto} {fs fs' : FileSystem} {d d' : CredentialDirective}

/-! ## Arguments -/

theorem isSome_of_rel {x y : Option SecretSource} (h : Option.Rel SourcesAlike x y) :
    y.isSome = x.isSome := by
  cases h <;> rfl

theorem setSecret_alike (h : DirectivesAlike d d') {source source' : SecretSource}
    (hsource : SourcesAlike source source') :
    Related DirectivesAlike (d.setSecret source) (d'.setSecret source') := by
  obtain ⟨secret', rfl, hsecret⟩ := h
  unfold setSecret
  dsimp only
  rw [isSome_of_rel hsecret]
  exact related_ite (fun _ => .exit _) fun _ => .ok ⟨some source', rfl, .some hsource⟩

/-- A key and its value are read alike, whatever the secret so far. -/
theorem readKey_alike (h : DirectivesAlike d d') {value : Str} (hvalue : value.bytes ≠ [])
    (k : Key) : Related DirectivesAlike (d.readKey value k) (d'.readKey value k) := by
  cases k with
  | secretKeyFile => exact setSecret_alike h (.file value)
  | secretKey => exact setSecret_alike h (.literal hvalue hvalue)
  | enabled =>
      obtain ⟨secret', rfl, hsecret⟩ := h
      refine related_ite (fun _ => .exit _) fun _ => ?_
      refine related_bind (related_refl (R := Eq) (fun _ => rfl) (parseOnOff value)) ?_
      rintro b _ rfl
      exact .ok ⟨secret', rfl, hsecret⟩
  | maxExpires =>
      obtain ⟨secret', rfl, hsecret⟩ := h
      refine related_ite (fun _ => .exit _) fun _ => ?_
      refine related_bind (related_refl (R := Eq) (fun _ => rfl) (parseDuration value)) ?_
      rintro m _ rfl
      exact .ok ⟨secret', rfl, hsecret⟩
  | allowed dim =>
      obtain ⟨secret', rfl, hsecret⟩ := h
      refine related_ite (fun _ => .exit _) fun _ => .ok ⟨secret', ?_, ?_⟩
      · cases dim <;> rfl
      · cases dim <;> exact hsecret

theorem parseArg_alike (h : DirectivesAlike d d') {arg arg' : Str}
    (harg : Masked arg.bytes arg'.bytes) :
    Related DirectivesAlike (d.parseArg arg) (d'.parseArg arg') := by
  rcases harg with heq | ⟨value, value', hne, hne', heq, heq'⟩
  · obtain rfl := Str.ext heq
    by_cases hflag : ∃ dim : Dimension, arg = dim.flag
    · obtain ⟨dim, rfl⟩ := hflag
      obtain ⟨secret', rfl, hsecret⟩ := h
      rw [parseArg_flag, parseArg_flag]
      refine .ok ⟨secret', ?_, ?_⟩
      · cases dim <;> rfl
      · cases dim <;> exact hsecret
    · have hflag := not_exists.mp hflag
      rw [parseArg_of_ne_flag hflag, parseArg_of_ne_flag hflag]
      cases hsplit : arg.splitOnce equals equals_lt with
      | none => exact .exit _
      | some kv =>
          obtain ⟨key, value⟩ := kv
          refine related_ite (fun _ => .exit _) fun hvalue => ?_
          by_cases hkey : ∃ k : Key, key = k.text
          · obtain ⟨k, rfl⟩ := hkey
            rw [parseKeyValue_text, parseKeyValue_text]
            exact readKey_alike h (isEmpty_eq_false.mp (Bool.not_eq_true _ ▸ hvalue)) k
          · have hkey := not_exists.mp hkey
            rw [parseKeyValue_unknown hkey, parseKeyValue_unknown hkey]
            exact .exit _
  · obtain rfl := Str.ext heq
    obtain rfl := Str.ext heq'
    rw [parseArg_keyed, parseArg_keyed, isEmpty_eq_false.mpr hne, isEmpty_eq_false.mpr hne',
      if_neg Bool.false_ne_true, if_neg Bool.false_ne_true]
    exact setSecret_alike h (.literal hne hne')

/-- Validation asks whether there is a secret. -/
theorem validate_alike (h : DirectivesAlike d d') : d.validate = d'.validate := by
  obtain ⟨secret', rfl, hsecret⟩ := h
  unfold validate validateIf
  dsimp only
  rw [← Option.not_isSome, ← Option.not_isSome, isSome_of_rel hsecret]

/-- Two lists of arguments, as text. -/
inductive MaskedTexts : List Str → List Str → Prop where
  | nil : MaskedTexts [] []
  | cons (first : Str) {rest rest' : List Str} :
      List.Forall₂ (fun arg arg' => Masked arg.bytes arg'.bytes) rest rest' →
      MaskedTexts (first :: rest) (first :: rest')

theorem parse_alike {args args' : List Str} (h : MaskedTexts args args') :
    Related DirectivesAlike (parse args) (parse args') := by
  cases h with
  | nil => exact .exit _
  | @cons first rest rest' hrest =>
      have hstart : DirectivesAlike (start first.trim) (start first.trim) := ⟨none, rfl, .none⟩
      have hstep : ∀ d d' arg arg', DirectivesAlike d d' → Masked arg.bytes arg'.bytes →
          Related DirectivesAlike (parseArg d arg) (parseArg d' arg') :=
        fun _ _ _ _ hd harg => parseArg_alike hd harg
      have hfold := related_foldlM hstep hrest hstart
      refine related_bind (related_refl (R := Eq) (fun _ => rfl) _) fun _ _ _ => ?_
      refine related_bind (related_refl (R := Eq) (fun _ => rfl) _) fun _ _ _ => ?_
      refine related_bind hfold fun d d' hd => ?_
      rw [validate_alike hd]
      exact related_bind (related_refl (R := Eq) (fun _ => rfl) _) fun _ _ _ => .ok hd

/-! ## Secrets -/

theorem readSecret_alike (hfs : MaskedFiles fs fs') {source source' : SecretSource}
    (h : SourcesAlike source source') (haccessKey : d.accessKey = d'.accessKey) :
    Related (fun s s' => s = s' ∨ (s.bytes ≠ [] ∧ s'.bytes ≠ [])) (d.readSecret fs source)
      (d'.readSecret fs' source') := by
  cases h with
  | literal hne hne' => exact .ok (Or.inr ⟨hne, hne'⟩)
  | file path =>
      rcases hfs path with hsame | ⟨secret, secret', hne, hne', hholding, hholding'⟩
      · have hread : d.readSecret fs (.file path) = d'.readSecret fs' (.file path) := by
          unfold readSecret
          dsimp only
          rw [hsame, haccessKey]
        rw [hread]
        refine related_refl (fun _ => ?_) _
        exact Or.inl rfl
      · rw [readSecret_eq_ok.mpr hholding, readSecret_eq_ok.mpr hholding']
        exact .ok (Or.inr ⟨hne, hne'⟩)

theorem resolve_alike (hfs : MaskedFiles fs fs') (h : DirectivesAlike d d') :
    Related CredentialsAlike (d.resolve fs) (d'.resolve fs') := by
  obtain ⟨secret', rfl, hsecret⟩ := h
  unfold resolve loadSecret
  dsimp only
  have hsource : Related (ε := DirectiveError) SourcesAlike (expect d.secret) (expect secret') := by
    revert hsecret
    generalize d.secret = secret
    rintro (h | _)
    · exact .ok h
    · exact .panic _
  simp only [bind_assoc]
  refine related_bind hsource fun source source' hs => ?_
  refine related_bind (readSecret_alike hfs hs rfl) fun text text' ht => ?_
  have hempty : text.isEmpty = text'.isEmpty := by
    rcases ht with rfl | ⟨hne, hne'⟩
    · rfl
    · rw [isEmpty_eq_false.mpr hne, isEmpty_eq_false.mpr hne']
  rw [← hempty]
  cases hnil : text.isEmpty with
  | true => exact .exit _
  | false =>
      rw [hnil] at hempty
      exact .ok ⟨rfl, isEmpty_eq_false.mp hnil, isEmpty_eq_false.mp hempty.symm⟩

/-! ## The verifier -/

theorem compileCredential_alike {c c' : Credential} (h : CredentialsAlike c c') (m : Duration) :
    Related (fun k k' => k.accessKey = k'.accessKey) (compileCredential C c m)
      (compileCredential C c' m) := by
  have hempty := isEmpty_eq_false.mpr h.secretKey
  have hempty' := isEmpty_eq_false.mpr h.secretKey'
  obtain ⟨hrest, _, _⟩ := h
  unfold SameButSecret at hrest
  revert hempty'
  rw [hrest]
  intro hempty'
  unfold compileCredential
  dsimp only at hempty' ⊢
  rw [hempty, hempty']
  refine related_bind (related_refl (R := Eq) (fun _ => rfl) _) fun _ _ _ => ?_
  refine related_bind (related_refl (R := Eq) (fun _ => rfl) _) fun _ _ _ => ?_
  refine related_bind (related_refl (R := Eq) (fun _ => rfl) _) fun _ _ _ => ?_
  refine related_bind (related_refl (R := Eq) (fun _ => rfl) _) fun _ _ _ => ?_
  refine related_bind (related_refl (R := Eq) (fun _ => rfl) _) fun _ _ _ => ?_
  refine related_bind (related_refl (R := Eq) (fun _ => rfl) _) fun _ _ _ => ?_
  exact related_bind (related_refl (R := Eq) (fun _ => rfl) _) fun _ _ _ => .ok rfl

/-- Two tables with the same access keys. -/
def SameKeys (t t' : AList fun _ : Str => CompiledCredential) : Prop := ∀ k, k ∈ t ↔ k ∈ t'

theorem insertCredential_alike (m : Duration) (t t' : AList fun _ : Str => CompiledCredential)
    (c c' : Credential) (ht : SameKeys t t') (h : CredentialsAlike c c') :
    Related SameKeys (insertCredential C m t c) (insertCredential C m t' c') := by
  refine related_bind (compileCredential_alike h m) fun k k' hkey => ?_
  rw [hkey]
  by_cases hmem : k'.accessKey ∈ t
  · rw [if_pos hmem, if_pos ((ht _).mp hmem)]
    exact .exit _
  · rw [if_neg hmem, if_neg fun hmem' => hmem ((ht _).mpr hmem')]
    refine .ok fun key => ?_
    rw [AList.mem_insert, AList.mem_insert, ht key]

/-- **The verifier** is built, or refused, alike. -/
theorem new_alike {cs cs' : List Credential} (h : List.Forall₂ CredentialsAlike cs cs')
    (settings : Settings) :
    Related (fun v v' => Verifier.new C settings cs = ok v ∧ Verifier.new C settings cs' = ok v')
      (Verifier.new C settings cs) (Verifier.new C settings cs') := by
  have hnew : Related (fun _ _ => True) (Verifier.new C settings cs)
      (Verifier.new C settings cs') := by
    have hempty : SameKeys ∅ ∅ := fun _ => Iff.rfl
    have hfold := fun m => related_foldlM (insertCredential_alike (C := C) m) h hempty
    refine related_bind (R := fun _ _ => True) ?_ fun _ _ _ => .ok trivial
    unfold compileState
    refine related_bind (related_refl (R := Eq) (fun _ => rfl) _) fun _ _ _ => ?_
    refine related_bind (related_refl (R := Eq) (fun _ => rfl) _) fun _ _ _ => ?_
    exact related_bind (hfold _) fun _ _ _ => .ok trivial
  exact related_mono (related_eqn hnew) fun _ _ h => h.2

/-! ## Directives -/

theorem Masked.symm {arg arg' : Bytes} (h : Masked arg arg') : Masked arg' arg := by
  rcases h with h | ⟨value, value', hne, hne', heq, heq'⟩
  · exact Or.inl h.symm
  · exact Or.inr ⟨value', value, hne', hne, heq', heq⟩

theorem MaskedArgs.symm {args args' : List Bytes} (h : MaskedArgs args args') :
    MaskedArgs args' args := by
  cases h with
  | nil => exact .nil
  | cons first hrest => exact .cons first ((hrest.imp fun _ _ h => h.symm).flip)

/-- What masks text is text. -/
theorem MaskedArgs.texts {texts : List Str} {args args' : List Bytes} (h : MaskedArgs args args')
    (htexts : args = texts.map Str.bytes) :
    ∃ texts', args' = texts'.map Str.bytes ∧ MaskedTexts texts texts' := by
  have hrest : ∀ (texts : List Str) (args' : List Bytes),
      List.Forall₂ Masked (texts.map Str.bytes) args' → ∃ texts' : List Str,
        args' = texts'.map Str.bytes
          ∧ List.Forall₂ (fun arg arg' => Masked arg.bytes arg'.bytes) texts texts' := by
    intro texts
    induction texts with
    | nil =>
        rintro _ ⟨⟩
        exact ⟨[], rfl, .nil⟩
    | cons text texts ih =>
        rintro _ (_ | @⟨_, arg', _, _, hmasked, hrest⟩)
        obtain ⟨texts', rfl, hall⟩ := ih _ hrest
        have htext : ∃ text' : Str, arg' = text'.bytes := by
          rcases hmasked with h | ⟨_, value', _, _, _, h⟩
          · exact ⟨text, h.symm⟩
          · exact ⟨_, h⟩
        obtain ⟨text', rfl⟩ := htext
        exact ⟨text' :: texts', rfl, .cons hmasked hall⟩
  cases h with
  | nil =>
      rw [List.map_eq_nil_iff.mp htexts.symm]
      exact ⟨[], rfl, .nil⟩
  | cons first h =>
      cases texts with
      | nil => cases htexts
      | cons text texts =>
          obtain ⟨rfl, rfl⟩ := List.cons.inj htexts
          obtain ⟨texts', rfl, hall⟩ := hrest texts _ h
          exact ⟨text :: texts', rfl, .cons text hall⟩

theorem directiveArgs_alike {args args' : List Bytes} (h : MaskedArgs args args') :
    Related MaskedTexts (directiveArgs args) (directiveArgs args') := by
  cases hmap : args.mapM Str.fromUtf8 with
  | some texts =>
      obtain ⟨texts', htexts', hmasked⟩ := h.texts (mapM_fromUtf8_iff.mp hmap)
      rw [directiveArgs_eq_ok.mpr hmap, directiveArgs_iff.mpr htexts']
      exact .ok hmasked
  | none =>
      have hmap' : args'.mapM Str.fromUtf8 = none := by
        cases hmap' : args'.mapM Str.fromUtf8 with
        | none => rfl
        | some texts' =>
            obtain ⟨texts, htexts, _⟩ := h.symm.texts (mapM_fromUtf8_iff.mp hmap')
            rw [mapM_fromUtf8_iff.mpr htexts] at hmap
            cases hmap
      unfold directiveArgs
      rw [hmap, hmap']
      exact .exit _

theorem related_guardConf {α β : Type} {R : α → β → Prop} {x : Outcome ConfError α}
    {y : Outcome ConfError β} (h : Related R x y) : Related R (guardConf x) (guardConf y) := by
  cases h with
  | ok h => exact .ok h
  | exit e => exact .exit e
  | panic p => exact .exit _

/-- Two configurations that differ in the secrets of their credentials. -/
def MainsAlike (main main' : MainConf) : Prop :=
  ∃ ds, main' = { main with credentials := ds } ∧ List.Forall₂ DirectivesAlike main.credentials ds

variable {main main' : MainConf} {loc : LocConf}

theorem DirectivesAlike.accessKey (h : DirectivesAlike d d') : d.accessKey = d'.accessKey := by
  obtain ⟨_, rfl, _⟩ := h
  rfl

theorem any_accessKey_alike {ds ds' : List CredentialDirective}
    (h : List.Forall₂ DirectivesAlike ds ds') (key : Str) :
    ds.any (·.accessKey == key) = ds'.any (·.accessKey == key) := by
  induction h with
  | nil => rfl
  | cons hfirst _ ih => rw [List.any_cons, List.any_cons, hfirst.accessKey, ih]

theorem setCredential_alike (h : MainsAlike main main') {args args' : List Bytes}
    (hargs : MaskedArgs args args') :
    Related MainsAlike (setCredential args main) (setCredential args' main') := by
  obtain ⟨ds, rfl, hds⟩ := h
  refine related_guardConf (related_bind (directiveArgs_alike hargs) fun texts texts' htexts => ?_)
  refine related_bind (related_mapExit _ (parse_alike htexts)) fun d d' hd => ?_
  dsimp only
  rw [← any_accessKey_alike hds, ← hd.accessKey]
  refine related_ite (fun _ => .exit _) fun _ => ?_
  exact .ok ⟨ds ++ [d'], rfl, List.rel_append hds (.cons hd .nil)⟩

theorem related_self {ε α : Type} {x : Outcome ε α} : Related Eq x x := related_refl (fun _ => rfl) x

/-- A handler that sets a slot does not look at the credentials. -/
theorem setOnce_alike {β : Type} {parse : Str → Outcome DirectiveError β}
    {field : MainConf → Option β} {fill : MainConf → β → MainConf}
    (hfield : field main = field main')
    (hfill : ∀ b, MainsAlike (fill main b) (fill main' b)) (args : List Bytes) :
    Related MainsAlike
      (guardConf (if (field main).isSome then exit .duplicate
        else do
          let args ← directiveArgs args
          let arg ← firstArg args
          let b ← (parse arg).mapExit DirectiveError.toConfError
          ok (fill main b)))
      (guardConf (if (field main').isSome then exit .duplicate
        else do
          let args ← directiveArgs args
          let arg ← firstArg args
          let b ← (parse arg).mapExit DirectiveError.toConfError
          ok (fill main' b))) := by
  rw [hfield]
  refine related_guardConf (related_ite (fun _ => .exit _) fun _ => ?_)
  refine related_bind related_self ?_
  rintro texts _ rfl
  refine related_bind related_self ?_
  rintro text _ rfl
  refine related_bind related_self ?_
  rintro b _ rfl
  exact .ok (hfill b)

theorem setMainDuration_alike {field : MainConf → Option Duration}
    {fill : MainConf → Duration → MainConf} (hfield : field main = field main')
    (hfill : ∀ d, MainsAlike (fill main d) (fill main' d)) (args : List Bytes) :
    Related MainsAlike (setMainDuration field fill args main)
      (setMainDuration field fill args main') := setOnce_alike hfield hfill args

theorem setMainFlag_alike {field : MainConf → Option Bool} {fill : MainConf → Bool → MainConf}
    (hfield : field main = field main') (hfill : ∀ b, MainsAlike (fill main b) (fill main' b))
    (args : List Bytes) :
    Related MainsAlike (setMainFlag field fill args main) (setMainFlag field fill args main') :=
  setOnce_alike hfield hfill args

theorem setMethods_alike (h : MainsAlike main main') (args : List Bytes) :
    Related MainsAlike (setMethods args main) (setMethods args main') := by
  obtain ⟨ds, rfl, hds⟩ := h
  refine related_guardConf (related_ite (fun _ => .exit _) fun _ => ?_)
  refine related_bind related_self ?_
  rintro texts _ rfl
  refine related_bind related_self ?_
  rintro _ _ rfl
  exact .ok ⟨ds, rfl, hds⟩

theorem setMode_alike (h : MainsAlike main main') (args : List Bytes) :
    Related (fun r r' => MainsAlike r.1 r'.1 ∧ r.2 = r'.2) (setMode args main loc)
      (setMode args main' loc) := by
  obtain ⟨ds, rfl, hds⟩ := h
  refine related_guardConf (related_ite (fun _ => .exit _) fun _ => ?_)
  refine related_bind related_self ?_
  rintro texts _ rfl
  refine related_bind related_self ?_
  rintro text _ rfl
  refine related_bind related_self ?_
  rintro mode _ rfl
  refine .ok ⟨⟨ds, ?_, ?_⟩, rfl⟩
  · cases mode.verifies <;> rfl
  · rw [enable_credentials]
    exact hds

/-- The other directives are read alike. -/
theorem set_alike (h : MainsAlike main main') {command : Command} (hne : command ≠ .credential)
    (args : List Bytes) :
    Related (fun r r' => MainsAlike r.1 r'.1 ∧ r.2 = r'.2) (command.set args main loc)
      (command.set args main' loc) := by
  have hpair : ∀ {x y : Outcome ConfError MainConf}, Related MainsAlike x y →
      Related (fun r r' => MainsAlike r.1 r'.1 ∧ r.2 = r'.2) ((·, loc) <$> x) ((·, loc) <$> y) :=
    fun h => related_map h fun _ _ h => ⟨h, rfl⟩
  cases command with
  | credential => exact absurd rfl hne
  | verify => exact setMode_alike h args
  | methods => exact hpair (setMethods_alike h args)
  | clockSkew =>
      obtain ⟨ds, rfl, hds⟩ := h
      refine hpair ?_
      unfold setClockSkew
      refine setMainDuration_alike ?_ (fun _ => ?_) args
      · rfl
      · exact ⟨ds, rfl, hds⟩
  | defaultMaxExpires =>
      obtain ⟨ds, rfl, hds⟩ := h
      refine hpair ?_
      unfold setDefaultMaxExpires
      refine setMainDuration_alike ?_ (fun _ => ?_) args
      · rfl
      · exact ⟨ds, rfl, hds⟩
  | logDenies =>
      obtain ⟨ds, rfl, hds⟩ := h
      refine hpair ?_
      unfold setLogDenies
      refine setMainFlag_alike ?_ (fun _ => ?_) args
      · rfl
      · exact ⟨ds, rfl, hds⟩
  | logAll =>
      obtain ⟨ds, rfl, hds⟩ := h
      refine hpair ?_
      unfold setLogAll
      refine setMainFlag_alike ?_ (fun _ => ?_) args
      · rfl
      · exact ⟨ds, rfl, hds⟩

/-! ## The block -/

theorem MaskedArgs.takes {args args' : List Bytes} (h : MaskedArgs args args') :
    Command.takes .credential args = Command.takes .credential args' := by
  cases h <;> rfl

theorem call_alike (h : MainsAlike main main') {level : Level} {command : Command}
    {args args' : List Bytes}
    (hargs : args = args' ∨ (command = .credential ∧ MaskedArgs args args')) :
    Related (fun r r' => MainsAlike r.1 r'.1 ∧ r.2 = r'.2) (command.call level args main loc)
      (command.call level args' main' loc) := by
  have htakes : command.takes args = command.takes args' := by
    rcases hargs with rfl | ⟨rfl, hargs⟩
    · rfl
    · exact hargs.takes
  unfold Command.call
  rw [htakes]
  refine related_bind related_self fun _ _ _ => related_bind related_self fun _ _ _ => ?_
  by_cases hcredential : command = .credential
  · subst hcredential
    have hargs : MaskedArgs args args' := by
      rcases hargs with rfl | ⟨_, hargs⟩
      · cases args with
        | nil => exact .nil
        | cons first rest => exact .cons first (List.forall₂_same.mpr fun _ _ => Or.inl rfl)
      · exact hargs
    exact related_map (setCredential_alike h hargs) fun _ _ h => ⟨h, rfl⟩
  · obtain rfl := hargs.resolve_right fun h => hcredential h.1
    exact set_alike h hcredential args

/-- **A block is read alike.** -/
theorem blockParse_alike {b b' : Block} (hb : MaskedBlock b b') {level : Level}
    (h : MainsAlike main main') (loc : LocConf) :
    Related (fun r r' => MainsAlike r.1 r'.1 ∧ r.2 = r'.2) (b.parse level main loc)
      (b'.parse level main' loc) := by
  induction hb generalizing level main main' loc with
  | done => exact .ok ⟨h, rfl⟩
  | directive command args _ ih =>
      refine related_bind (call_alike h (Or.inl rfl)) ?_
      rintro ⟨m, l⟩ ⟨m', _⟩ ⟨hm, rfl⟩
      exact ih hm l
  | credential hargs _ ih =>
      refine related_bind (call_alike h (Or.inr ⟨rfl, hargs⟩)) ?_
      rintro ⟨m, l⟩ ⟨m', _⟩ ⟨hm, rfl⟩
      exact ih hm l
  | block _ _ ihinner ihrest =>
      refine related_bind (ihinner h .default) ?_
      rintro ⟨m, l⟩ ⟨m', _⟩ ⟨hm, rfl⟩
      refine related_bind (ihrest hm loc) ?_
      rintro ⟨m, l⟩ ⟨m', _⟩ ⟨hm, rfl⟩
      exact .ok ⟨hm, rfl⟩

theorem resolveNext_alike (hfs : MaskedFiles fs fs') (cs cs' : List Credential)
    (d d' : CredentialDirective) (hcs : List.Forall₂ CredentialsAlike cs cs')
    (hd : DirectivesAlike d d') :
    Related (List.Forall₂ CredentialsAlike) (resolveNext fs cs d) (resolveNext fs' cs' d') :=
  related_bind (related_mapExit _ (resolve_alike hfs hd)) fun _ _ hc =>
    .ok (List.rel_append hcs (.cons hc .nil))

/-! ## The whole -/

/-- What two configurations have in common that differ in their secrets. -/
structure LoadedAlike (C : Crypto) (main main' : MainConf) : Prop where
  settings : main.settings = main'.settings
  clockSkew : main.clockSkew = main'.clockSkew
  defaultMaxExpires : main.defaultMaxExpires = main'.defaultMaxExpires
  supportedMethods : main.supportedMethods = main'.supportedMethods
  logDenies : main.logDenies = main'.logDenies
  logAll : main.logAll = main'.logAll
  enabledAnywhere : main.enabledAnywhere = main'.enabledAnywhere
  credentials : List.Forall₂ DirectivesAlike main.credentials main'.credentials
  /-- Both have a verifier or neither has, and the credentials are told apart by secrets alone. -/
  verifier : (main.verifier = none ∧ main'.verifier = none) ∨ ∃ cs cs' v v',
    List.Forall₂ CredentialsAlike cs cs' ∧ Verifier.new C main.settings cs = ok v
      ∧ Verifier.new C main'.settings cs' = ok v' ∧ main.verifier = some v
      ∧ main'.verifier = some v'

theorem isEmpty_of_forall₂ {ds ds' : List CredentialDirective}
    (h : List.Forall₂ DirectivesAlike ds ds') : ds'.isEmpty = ds.isEmpty := by
  cases h <;> rfl

theorem initMainConf_alike (hfs : MaskedFiles fs fs') (h : MainsAlike main main')
    (hverifier : main.verifier = none) :
    Related (LoadedAlike C) (initMainConf C fs main) (initMainConf C fs' main') := by
  obtain ⟨ds, rfl, hds⟩ := h
  refine related_guardConf ?_
  dsimp only
  rw [isEmpty_of_forall₂ hds]
  refine related_ite (fun _ => ?_) fun _ => ?_
  · refine related_ite (fun _ => .exit _) fun _ => ?_
    exact .ok ⟨rfl, rfl, rfl, rfl, rfl, rfl, rfl, hds, Or.inl ⟨hverifier, hverifier⟩⟩
  · refine related_bind related_self fun _ _ _ => ?_
    refine related_bind (related_foldlM (resolveNext_alike hfs) hds .nil) fun cs cs' hcs => ?_
    refine related_bind (related_mapExit _ (new_alike hcs _)) fun v v' hv => ?_
    exact .ok ⟨rfl, rfl, rfl, rfl, rfl, rfl, rfl, hds,
      Or.inr ⟨cs, cs', v, v', hcs, hv.1, hv.2, rfl, rfl⟩⟩

/--
**Loading tells nothing of a secret.** Two `http` blocks and two file systems that differ in the
secrets they hold are loaded alike: both are refused with the same message, or both load, the
locations have the same modes, and the configurations are the same but for the secrets of their
credentials.
-/
theorem load_secret_blind {http http' : Block} (hhttp : MaskedBlock http http')
    (hfs : MaskedFiles fs fs') :
    Related (fun r r' => LoadedAlike C r.1 r'.1 ∧ r.2 = r'.2) (loadHttp C fs http)
      (loadHttp C fs' http') := by
  have hstart : MainsAlike .default .default := ⟨[], rfl, .nil⟩
  refine related_bind (related_eqn (blockParse_alike hhttp hstart .default)) ?_
  rintro ⟨m, l, ls⟩ ⟨m', _⟩ ⟨⟨hm, rfl⟩, hparse, _⟩
  have hnone := (parse_http_iff.mp hparse).1.verifier
  refine related_bind (initMainConf_alike hfs hm hnone) fun m₁ m₁' hm₁ => ?_
  exact .ok ⟨hm₁, rfl⟩

/-- The sample with another secret. -/
theorem load_secret_blind_sample :
    ∃ http main main' locations,
      loadHttp sampleCrypto noFiles sampleHttp = ok (main, locations)
        ∧ loadHttp sampleCrypto noFiles http = ok (main', locations)
        ∧ http ≠ sampleHttp ∧ LoadedAlike sampleCrypto main main' := by
  have hsecret : Masked (bytes "secret_key=test-secret") (bytes "secret_key=rotated") :=
    Or.inr ⟨.lit "test-secret", .lit "rotated", by decide, by decide, by decide, by decide⟩
  have hargs : MaskedArgs
      [bytes "AKIATEST", bytes "secret_key=test-secret", bytes "allow_any_host",
        bytes "allowed_method=GET", bytes "allowed_prefix=/bucket/"]
      [bytes "AKIATEST", bytes "secret_key=rotated", bytes "allow_any_host",
        bytes "allowed_method=GET", bytes "allowed_prefix=/bucket/"] :=
    .cons _ (.cons hsecret (List.forall₂_same.mpr fun _ _ => Or.inl rfl))
  have hhttp : MaskedBlock sampleHttp _ :=
    .block (.block .done (.directive _ _ (.block (.directive _ _ (.block (.directive _ _ .done)
      .done)) .done))) (.credential hargs .done)
  have hfs : MaskedFiles noFiles noFiles := fun _ => Or.inl rfl
  have hok : (loadHttp sampleCrypto noFiles sampleHttp).isOk = true := by rfl
  obtain ⟨⟨main, locations⟩, hload⟩ := isOk_iff.mp hok
  have hrelated := load_secret_blind (C := sampleCrypto) hhttp hfs
  rw [hload] at hrelated
  generalize hload' : loadHttp sampleCrypto noFiles _ = x at hrelated
  cases hrelated with
  | @ok _ r' h =>
      obtain ⟨main', locations'⟩ := r'
      obtain ⟨halike, rfl⟩ := h
      refine ⟨_, main, main', locations, hload, hload', fun h => ?_, halike⟩
      exact absurd (congrArg Block.credentialArgs h) (by decide)

end SigV4
