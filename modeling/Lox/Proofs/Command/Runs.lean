import Lox.Command.Run
import Lox.Proofs.Command.Directory
import Lox.Proofs.Command.Prompt
import Lox.Proofs.History.Bucket

/-! The history over many runs of the program. Each run opens it anew; a prompt adds the lines that it reads, and
every other run leaves it alone. What is shown is therefore the end of all that was ever read. A run may be cut off, or
it may never end; then the lines that it got to are in the history, with the one at which it has stopped. -/
namespace Lox

namespace Settings

end Settings

namespace Command

variable {d : Directory} {file : Text} {h : History} {o : Options} {s : Settings}

/-- Settings come from a text file: the one that is named, unless there is none. -/
theorem loadSettings_eq_ok_iff {name : Text} : loadSettings d name = .ok s ↔
    ∃ content, d.find name = .ok (.file content) ∧ Settings.ofText content = (s, none) := by
  rw [loadSettings]
  split
  case h_1 content hfind =>
    rw [hfind]
    cases hs : Settings.ofText content with
    | mk s' e? => cases e? <;> simp [hs]
  case h_2 hfind => simp [hfind]
  case h_3 hfind => simp [hfind]
  case h_4 hfind => simp [hfind]

/-- Settings are the defaults or those of the file that is named, with what the options say. -/
theorem settings_eq_ok_iff : settings d o = .ok s ↔ ∃ base, adjusted o base = s ∧
    (o.config.isEmpty ∧ base = {} ∨ ¬ o.config.isEmpty ∧
      ∃ content, d.find o.config = .ok (.file content) ∧ Settings.ofText content = (base, none)) := by
  rw [settings]
  by_cases hconfig : o.config.isEmpty
  · simp [hconfig, Except.map]
  · simp only [hconfig, ← loadSettings_eq_ok_iff]
    cases loadSettings d o.config with
    | ok base => simp [Except.map]
    | error message => simp [Except.map]

theorem adjusted_historyFile (o : Options) (s : Settings) : (adjusted o s).historyFile = s.historyFile := by
  rw [adjusted]
  cases o.verbose <;> cases o.noColor <;> rfl

/-- An empty file sets nothing, so it names no history. -/
theorem historyFile_ofText_nil : (Settings.ofText []).1.historyFile = [] := by decide +kernel

/-- Settings that name a history do not come from the place where it is kept. -/
theorem config_ne_of_openHistory (hopen : d.openHistory file = .ok h) {content : Text}
    (hfind : d.find o.config = .ok (.file content)) (hof : Settings.ofText content = (s, none))
    (hs : s.historyFile ≠ []) : Path.ofText d.cwd o.config ≠ .ofText d.cwd file := by
  intro hsame
  obtain ⟨hdir, hblocked, -, hlookup⟩ := Directory.find_eq_ok_iff.mp hfind
  rw [hsame] at hdir hblocked hlookup
  have hfound : d.find file = .ok (.file content) :=
    Directory.find_eq_ok_iff.mpr ⟨hdir, hblocked, (Directory.room_of_openHistory hopen).plain, hlookup⟩
  -- An entry that can be opened as a history is no text, or an empty one.
  cases content with
  | nil =>
    have hnone := historyFile_ofText_nil
    rw [hof] at hnone
    exact hs hnone
  | cons b content =>
    rw [Directory.openHistory, hfound] at hopen
    contradiction

/-- What a history holds does not bear on settings that name it. -/
theorem settings_putHistory (hopen : d.openHistory file = .ok h) (hfile : file ≠ []) (h' : History)
    (hshare : ∀ s, settings d o = .ok s → s.historyFile = file) :
    settings (d.putHistory file h') o = .ok s ↔ settings d o = .ok s := by
  have hroom : d.Room file := Directory.room_of_openHistory hopen
  rw [settings_eq_ok_iff, settings_eq_ok_iff]
  constructor
  · rintro ⟨base, rfl, hdefault | ⟨hconfig, content, hfind, hof⟩⟩
    · exact ⟨base, rfl, .inl hdefault⟩
    · have hne : Path.ofText d.cwd o.config ≠ .ofText d.cwd file :=
        Directory.ofText_ne_of_find_putHistory h' hfind
      exact ⟨base, rfl, .inr ⟨hconfig, content, (Directory.find_putHistory_other hroom h' hne).mp hfind, hof⟩⟩
  · rintro ⟨base, rfl, hdefault | ⟨hconfig, content, hfind, hof⟩⟩
    · exact ⟨base, rfl, .inl hdefault⟩
    · have hnamed : base.historyFile = file := by
        rw [← adjusted_historyFile o]
        exact hshare _ (settings_eq_ok_iff.mpr ⟨base, rfl, .inr ⟨hconfig, content, hfind, hof⟩⟩)
      have hne := config_ne_of_openHistory hopen hfind hof (hnamed ▸ hfile)
      exact ⟨base, rfl, .inr ⟨hconfig, content, (Directory.find_putHistory_other hroom h' hne).mpr hfind, hof⟩⟩

/-- The command line asks for the prompt: not for the history, and for no script. -/
def asksForPrompt (o : Options) : Prop := o.history < 0 ∧ o.args = []

instance : Decidable (asksForPrompt o) := inferInstanceAs (Decidable (_ ∧ _))

/-- One start of the program: its arguments, what it can read, and how long a script or a line may take before the run is
cut off. -/
structure Invocation where
  args : List Text
  input : Text
  fuel : Nat

namespace Invocation

variable {i : Invocation}

/-- If the settings of a run can be loaded, they name the history. -/
def Shares (d : Directory) (file : Text) (i : Invocation) : Prop :=
  ∀ o s, Options.parse i.args = .ok o → settings d o = .ok s → s.historyFile = file

/-- The lines that the input of a run offers to a prompt. -/
def offered (i : Invocation) : List Text := Prompt.offered (inputLines i.input)

/-- The lines that a run reads at its prompt. There is one if the command line asks for nothing else and the
settings can be loaded. -/
def lines (d : Directory) (i : Invocation) : List Text :=
  match Options.parse i.args with
  | .error _ => []
  | .ok o =>
    match settings d o with
    | .error _ => []
    | .ok s =>
      match s.level with
      | .error _ => []
      | .ok level =>
        if asksForPrompt o then Prompt.linesRead (s.policy level) i.fuel .empty i.offered else []

def report (d : Directory) (i : Invocation) : Report := (run d i.fuel i.args i.input).1

end Invocation

def SameBut (file : Text) (d d' : Directory) : Prop := d' = d ∨ ∃ h, d' = d.putHistory file h

/-- What is in a history does not bear on the settings of later runs. -/
theorem SameBut.settings_iff {d' : Directory} (hsame : SameBut file d d') (hopen : d.openHistory file = .ok h)
    (hfile : file ≠ []) (hshare : ∀ s, settings d o = .ok s → s.historyFile = file) :
    settings d' o = .ok s ↔ settings d o = .ok s := by
  rcases hsame with rfl | ⟨h', rfl⟩
  · rfl
  · exact settings_putHistory hopen hfile h' hshare

theorem SameBut.lines {d' : Directory} {i : Invocation} (hsame : SameBut file d d')
    (hopen : d.openHistory file = .ok h) (hfile : file ≠ []) (hshare : i.Shares d file) :
    i.lines d' = i.lines d := by
  rw [Invocation.lines, Invocation.lines]
  cases hparse : Options.parse i.args with
  | error e => rfl
  | ok o =>
    have hiff := fun s => hsame.settings_iff (s := s) hopen hfile fun s => hshare o s hparse
    cases hs : settings d o with
    | ok s => simp [hs, (hiff s).mpr hs]
    | error message =>
      cases hs' : settings d' o with
      | error message' => simp [hs, hs']
      | ok s => simp [(hiff s).mp hs'] at hs

end Command
end Lox
