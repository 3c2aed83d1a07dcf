import TableDialects.Command.Session
import TableDialects.Proofs.Command.FileTree

/-!
# What a run leaves behind

A run that fails prints nothing, and it leaves the files alone unless the writing of its text broke
off. A conversion that succeeds leaves its text behind, in the file asked for, in the device asked
for, or else on the standard output.
-/
namespace TableDialects.Command

variable {s : Session} {o : Options} {settings : Settings} {d : Dialect} {l : Layout} {script : Text}

namespace Session

/-- The settings are those of the file asked for, or of the first of the usual places that is a
file. Without a file they are the defaults. -/
inductive Configures (s : Session) (o : Options) : Settings → Prop where
  | file {path text : Text} {settings : Settings} :
    o.settings.or (s.settingsPaths.find? s.isFile) = some path → s.read path = .ok text →
    Settings.read text = .ok settings → Configures s o settings
  | default : o.settings.or (s.settingsPaths.find? s.isFile) = none → Configures s o {}

/-- The dialect is that of the options, before that of the environment, before that of the
settings. -/
inductive Targets (s : Session) (o : Options) (settings : Settings) : Dialect → Prop where
  | named {name : Text} {d : Dialect} :
    o.target.or s.target = some name → Dialect.ofName name = .ok d → Targets s o settings d
  | settings {d : Dialect} :
    o.target.or s.target = none → settings.dialect? = .ok (some d) → Targets s o settings d

/-- The script is the text of the file asked for, or that of the standard input. -/
inductive Supplies (s : Session) : Option Text → Text → Prop where
  | file {path script : Text} : s.read path = .ok script → Supplies s (some path) script
  | standardInput {script : Text} : s.standardInput = some script → Supplies s none script

/-- The dialect, layout and script with which the options have a conversion work. -/
structure Selects (s : Session) (o : Options) (settings : Settings) (d : Dialect) (l : Layout)
    (script : Text) : Prop where
  configures : s.Configures o settings
  targets : s.Targets o settings d
  indent : l.indent = settings.layout.indent
  lineEnding : l.lineEnding = if o.lineFeeds then .lf else settings.layout.lineEnding
  supplies : s.Supplies o.input script

private theorem mapError_eq_ok_iff {ε ε' α : Type} {x : Except ε α} {f : ε → ε'} {a : α} :
    x.mapError f = .ok a ↔ x = .ok a := by
  cases x <;> simp [Except.mapError]

private theorem settings_eq_ok_iff :
    s.settings o.settings = .ok settings ↔ s.Configures o settings := by
  constructor
  · intro h
    rw [Session.settings] at h
    split at h
    · next hpath =>
      obtain rfl : {} = settings := by simpa using h
      exact .default hpath
    · next path hpath =>
      split at h
      · next text htext => exact .file hpath htext h
      · cases h
  · rintro (⟨hpath, htext, hread⟩ | hpath)
    · rw [Session.settings, hpath]
      simp only [htext, hread]
    · rw [Session.settings, hpath]

private theorem dialect_eq_ok_iff : s.dialect o settings = .ok d ↔ s.Targets o settings d := by
  constructor
  · intro h
    rw [Session.dialect] at h
    split at h
    · next name hname => exact .named hname (mapError_eq_ok_iff.1 h)
    · next hname =>
      split at h
      · next d' hd =>
        obtain rfl : d' = d := by simpa using h
        exact .settings hname hd
      · cases h
      · cases h
  · rintro (⟨hname, hd⟩ | ⟨hname, hd⟩)
    · rw [Session.dialect, hname]
      exact mapError_eq_ok_iff.2 hd
    · rw [Session.dialect, hname]
      simp only [hd]

private theorem script_eq_ok_iff {input : Option Text} :
    s.script input = .ok script ↔ s.Supplies input script := by
  constructor
  · intro h
    cases input with
    | some path =>
      rw [Session.script.eq_1] at h
      split at h
      · next text htext =>
        obtain rfl : text = script := by simpa using h
        exact .file htext
      · cases h
    | none =>
      rw [Session.script.eq_2] at h
      split at h
      · next text htext =>
        obtain rfl : text = script := by simpa using h
        exact .standardInput htext
      · cases h
  · rintro (hread | hinput)
    · rw [Session.script.eq_1, hread]
    · rw [Session.script.eq_2, hinput]

/-- A conversion goes ahead just with what the options select. -/
theorem inputs_eq_ok_iff :
    s.inputs o = .ok (d, l, script) ↔ ∃ settings, s.Selects o settings d l script := by
  constructor
  · intro h
    rw [inputs] at h
    cases hsettings : s.settings o.settings with
    | error p => simp [hsettings, Except.mapError, bind, Except.bind] at h
    | ok settings =>
      cases hd : s.dialect o settings with
      | error m => simp [hsettings, hd, Except.mapError, bind, Except.bind] at h
      | ok d' =>
        cases hscript : s.script o.input with
        | error m => simp [hsettings, hd, hscript, Except.mapError, bind, Except.bind] at h
        | ok script' =>
          simp only [hsettings, hd, hscript, Except.mapError, bind, Except.bind, pure, Except.pure,
            Except.ok.injEq, Prod.mk.injEq] at h
          obtain ⟨rfl, rfl, rfl⟩ := h
          refine ⟨settings, settings_eq_ok_iff.1 hsettings, dialect_eq_ok_iff.1 hd, ?_, ?_,
            script_eq_ok_iff.1 hscript⟩ <;> split <;> rfl
  · rintro ⟨settings, hsettings, hd, hindent, hending, hscript⟩
    have hl : (if o.lineFeeds then { settings.layout with lineEnding := .lf }
        else settings.layout) = l := by
      obtain ⟨lineEnding, indent⟩ := l
      obtain rfl : indent = settings.layout.indent := hindent
      obtain rfl : lineEnding = _ := hending
      split <;> rfl
    simp [inputs, settings_eq_ok_iff.2 hsettings, dialect_eq_ok_iff.2 hd,
      script_eq_ok_iff.2 hscript, hl, Except.mapError, bind, Except.bind, pure, Except.pure]

/-- A conversion for which something is missing fails. -/
theorem planConversion_of_error {message : Text} (h : s.inputs o = .error message) :
    s.planConversion o = .finish (failure [] message) := by
  rw [planConversion, h]

/-- A conversion to the standard output ends with its text. -/
theorem planConversion_of_output_none (h : s.inputs o = .ok (d, l, script))
    (ho : o.output = none) :
    ∃ notes, s.planConversion o =
      .finish { exitCode := 0, stdout := Script.convert d l script ++ ['\n'], stderr := notes } := by
  rw [planConversion, h]
  simp only [ho, line, List.flatten_cons, List.flatten_nil, List.append_nil]
  exact ⟨_, rfl⟩

/-- A conversion to a file writes its text. -/
theorem planConversion_of_output_some {path : Text} (h : s.inputs o = .ok (d, l, script))
    (ho : o.output = some path) :
    ∃ notes success, s.planConversion o =
      .write ⟨path, Script.convert d l script, notes, success⟩ := by
  rw [planConversion, h]
  simp only [ho]
  exact ⟨_, _, rfl⟩

end Session

/-- A text is delivered to a file or to a device, or to the standard output. All other files stay as
they are. -/
inductive Delivers (h : Host) (sql : Text) (t : FileTree) :
    Option Text → Output × FileTree → Prop where
  | file {path : Text} {p : Path} {output : Output} {t' : FileTree} :
    output.stdout = [] → t.Leads h path p → t'.locate h path = .ok (.file p) →
    t'.find? p = some (some sql) → (∀ q, q ≠ p → t'.find? q = t.find? q) →
    Delivers h sql t (some path) (output, t')
  | device {path : Text} {d : Device} {channel : Channel} {output : Output} :
    t.locate h path = .ok (.device d) → d.takes = .ok channel →
    output.stdout = (if channel = .standardOutput then sql else []) →
    Delivers h sql t (some path) (output, t)
  | standardOutput {output : Output} :
    output.stdout = sql ++ ['\n'] → Delivers h sql t none (output, t)

/-- The writing of a text to a file broke off, so that the file holds the first bytes. All other
files stay as they are. -/
inductive BreaksOff (h : Host) (sql : Text) (t : FileTree) : Option Text → FileTree → Prop where
  | file {path : Text} {p : Path} {bytes : Nat} {fault : FileFault} {t' : FileTree} :
    t.Leads h path p → h.fate p = .cut bytes fault → bytes < Text.utf8Length sql →
    t'.find? p = some (Text.takeBytes? bytes sql) → (∀ q, q ≠ p → t'.find? q = t.find? q) →
    BreaksOff h sql t (some path) t'

/-- No writing breaks off where every file takes all that is written to it. -/
theorem BreaksOff.exists_cut {h : Host} {sql : Text} {t t' : FileTree} {target : Option Text}
    (hbroke : BreaksOff h sql t target t') : ∃ p bytes fault, h.fate p = .cut bytes fault := by
  cases hbroke with
  | file _ hfate => exact ⟨_, _, _, hfate⟩

/-- What carrying out a conversion that goes ahead brings about. -/
inductive CarriedOut (h : Host) (sql : Text) (t : FileTree) :
    Option Text → Output × FileTree → Prop where
  | delivered {target : Option Text} {output : Output} {t' : FileTree} :
    output.exitCode = 0 → Delivers h sql t target (output, t') →
    CarriedOut h sql t target (output, t')
  | brokeOff {target : Option Text} {output : Output} {t' : FileTree} :
    output.exitCode ≠ 0 → output.stdout = [] → BreaksOff h sql t target t' →
    CarriedOut h sql t target (output, t')
  | refused {target : Option Text} {output : Output} :
    output.exitCode ≠ 0 → output.stdout = [] → CarriedOut h sql t target (output, t)

private theorem CarriedOut.of_failed {target : Option Text} {after : Output × FileTree}
    (hafter : CarriedOut h sql t target after) (hcode : after.1.exitCode ≠ 0) :
    after.1.stdout = [] ∧ (after.2 = t ∨ BreaksOff h sql t target after.2) := by
  cases hafter with
  | delivered hcode' => exact absurd hcode' hcode
  | brokeOff _ hquiet hbroke => exact ⟨hquiet, .inr hbroke⟩
  | refused _ hquiet => exact ⟨hquiet, .inl rfl⟩

private theorem CarriedOut.delivers {target : Option Text} {after : Output × FileTree}
    (hafter : CarriedOut h sql t target after) (hcode : after.1.exitCode = 0) :
    Delivers h sql t target after := by
  cases hafter with
  | delivered _ hdelivers => exact hdelivers
  | brokeOff hcode' => exact absurd hcode hcode'
  | refused hcode' => exact absurd hcode hcode'

private theorem Plan.run_write (h : Host) (t : FileTree) (path sql notes success : Text) :
    CarriedOut h sql t (some path) ((Plan.write ⟨path, sql, notes, success⟩).run t h) := by
  have hwritten := FileTree.written_write t h path sql
  rw [Plan.run]
  generalize t.write h path sql = delivery at hwritten ⊢
  cases hwritten with
  | file hp =>
    exact .delivered rfl (.file rfl hp hp.locate_putting FileTree.find?_putting_self
      fun q => FileTree.find?_putting_of_ne)
  | device hd htakes => exact .delivered rfl (.device hd htakes rfl)
  | cut hp hfate hlong =>
    exact .brokeOff (Nat.succ_ne_zero 0) rfl
      (.file hp hfate hlong FileTree.find?_putting_self fun q => FileTree.find?_putting_of_ne)
  | refused => exact .refused (Nat.succ_ne_zero 0) rfl

namespace Session

/-- A conversion fails for what is missing, or it is carried out with what the options select. -/
theorem carriedOut_of_planConversion (h : Host) (t : FileTree) :
    (∃ message, s.planConversion o = .finish (failure [] message)) ∨
      ∃ settings d l script, s.Selects o settings d l script ∧
        CarriedOut h (Script.convert d l script) t o.output ((s.planConversion o).run t h) := by
  cases hi : s.inputs o with
  | error message => exact .inl ⟨message, planConversion_of_error hi⟩
  | ok given =>
    obtain ⟨d, l, script⟩ := given
    obtain ⟨settings, hselects⟩ := inputs_eq_ok_iff.1 hi
    refine .inr ⟨settings, d, l, script, hselects, ?_⟩
    cases ho : o.output with
    | none =>
      obtain ⟨notes, hplan⟩ := planConversion_of_output_none hi ho
      rw [hplan]
      exact .delivered rfl (.standardOutput rfl)
    | some path =>
      obtain ⟨notes, success, hplan⟩ := planConversion_of_output_some hi ho
      rw [hplan]
      exact Plan.run_write h t path _ notes success

private theorem plan_of_convert (hrequest : Request.ofArguments? s.arguments = some (.convert o)) :
    s.plan = s.planConversion o := by
  rw [plan, hrequest]

/-- A run that is no conversion ends at once, and prints nothing if it fails. -/
theorem plan_of_ne_convert (hrequest : ∀ o, Request.ofArguments? s.arguments ≠ some (.convert o)) :
    ∃ output, s.plan = .finish output ∧ (output.exitCode ≠ 0 → output.stdout = []) := by
  rw [plan]
  cases hr : Request.ofArguments? s.arguments with
  | none => exact ⟨_, rfl, fun _ => rfl⟩
  | some request =>
    cases request with
    | version => exact ⟨_, rfl, fun hcode => absurd rfl hcode⟩
    | help => exact ⟨_, rfl, fun hcode => absurd rfl hcode⟩
    | dialects => exact ⟨_, rfl, fun hcode => absurd rfl hcode⟩
    | explain input asJson =>
      refine ⟨_, rfl, fun hcode => ?_⟩
      rw [planExplanation] at hcode ⊢
      split
      · rfl
      · next hscript => simp [hscript] at hcode
    | convert o => exact absurd hr (hrequest o)

end Session

/-- The session of a run on a host. -/
def session (arguments : List Text) (target standardInput : Option Text) (configuration : Text)
    (t : FileTree) (h : Host) : Session :=
  { arguments, target, standardInput, settingsPaths := settingsPaths configuration,
    isFile := t.isFile h, read := t.read h }

end TableDialects.Command
