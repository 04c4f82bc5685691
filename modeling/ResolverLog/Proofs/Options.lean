import ResolverLog.Proofs.CommandLine

/-!
# Command lines that feed a log

A command line that names the log, asks for one worker and sets sizes is read as
what it says, in whatever order and however often its arguments stand. Whatever
it does not name stays at its default.
-/

namespace ResolverLog

namespace Options

variable {o : Options}

/-- A number in decimal digits is read as that number. -/
theorem unsigned_ofNat (n : UInt64) : unsigned (Decimal.ofNat n.toNat) = .ok n := by
  have hbegins := Decimal.leading?_eq_some_iff.mp (Decimal.leading?_ofNat n.toNat)
  exact unsigned_eq_ok_iff.mpr ⟨_, hbegins, n.toNat_lt, UInt64.ofNat_toNat.symm⟩

/-- An option for a number takes a number over. -/
theorem read_number {set : UInt64 → Options} (word : Bytes) (n : UInt64) (rest : List Bytes)
    (hword : word ∉ switches)
    (h : assign? o word (Decimal.ofNat n.toNat)
      = some ((unsigned (Decimal.ofNat n.toNat)).map set)) :
    read o (word :: Decimal.ofNat n.toNat :: rest) = read (set n) rest := by
  rw [unsigned_ofNat] at h
  exact read_value rest hword h

/-- Options that switch recording on and leave the events, the note file and the control interface
at their defaults. -/
structure Plain (o : Options) : Prop where
  enabled_eq : o.config.enabled = true
  disable_eq : o.disable = false
  intervalHours_eq : o.config.intervalHours = 24
  feedFile_eq : o.feedFile = []
  httpEnable_eq : o.httpEnable = false
  httpPort_eq : o.httpPort = 8080
  noteFile_eq : o.noteFile = ascii "querypulse.err.log"

theorem Plain.default (cores : Nat) : (default cores).Plain :=
  ⟨rfl, rfl, rfl, rfl, rfl, rfl, rfl⟩

end Options

/-- What a command line says about the feeding of the log `q.log`. -/
inductive Argument
  | logFile
  | oneWorker
  | cacheSize (n : UInt64)
  | bufferSize (n : UInt64)
  | topSize (n : UInt64)
  | queueCapacity (n : UInt64)
  deriving DecidableEq, Repr

namespace Argument

variable {o : Options} {arguments : List Argument}

/-- The words of an argument. -/
def words : Argument → List Bytes
  | logFile => [ascii "--log-file", ascii "q.log"]
  | oneWorker => [ascii "--workers", Decimal.ofNat (1 : UInt64).toNat]
  | cacheSize n => [ascii "--cache-size", Decimal.ofNat n.toNat]
  | bufferSize n => [ascii "--buffer-size", Decimal.ofNat n.toNat]
  | topSize n => [ascii "--top-size", Decimal.ofNat n.toNat]
  | queueCapacity n => [ascii "--qcap", Decimal.ofNat n.toNat]

/-- The options with what an argument says. -/
def apply (o : Options) : Argument → Options
  | logFile => { o with config := { o.config with logFile := ascii "q.log" } }
  | oneWorker => { o with workers := 1 }
  | cacheSize n => { o with config := { o.config with cacheSize := n } }
  | bufferSize n => { o with config := { o.config with bufferSize := n } }
  | topSize n => { o with config := { o.config with topSize := n } }
  | queueCapacity n => { o with queueCapacity := n }

theorem read_words (o : Options) (argument : Argument) (rest : List Bytes) :
    Options.read o (argument.words ++ rest) = Options.read (argument.apply o) rest := by
  cases argument with
  | logFile => exact Options.read_value rest (by decide) rfl
  | oneWorker => exact Options.read_number (ascii "--workers") 1 rest (by decide) rfl
  | cacheSize n => exact Options.read_number (ascii "--cache-size") n rest (by decide) rfl
  | bufferSize n => exact Options.read_number (ascii "--buffer-size") n rest (by decide) rfl
  | topSize n => exact Options.read_number (ascii "--top-size") n rest (by decide) rfl
  | queueCapacity n => exact Options.read_number (ascii "--qcap") n rest (by decide) rfl

/-- The arguments of a command line are taken over from left to right. -/
theorem read_flatMap (o : Options) (arguments : List Argument) :
    Options.read o (arguments.flatMap words) = .ok (arguments.foldl apply o) := by
  induction arguments generalizing o with
  | nil => rfl
  | cons argument arguments ih =>
      rw [List.flatMap_cons, read_words, ih, List.foldl_cons]

/-- What no argument undoes stays. -/
theorem foldl_keeps {P : Options → Prop} (keeps : ∀ o argument, P o → P (apply o argument))
    (arguments : List Argument) (h : P o) : P (arguments.foldl apply o) := by
  induction arguments generalizing o with
  | nil => exact h
  | cons argument arguments ih => exact ih (keeps o argument h)

/-- What one argument brings about and no other undoes holds in the end. -/
theorem foldl_of_mem {P : Options → Prop} {argument : Argument}
    (keeps : ∀ o argument, P o → P (apply o argument)) (sets : ∀ o, P (apply o argument))
    (h : argument ∈ arguments) (o : Options) : P (arguments.foldl apply o) := by
  obtain ⟨before, after, rfl⟩ := List.append_of_mem h
  rw [List.foldl_append, List.foldl_cons]
  exact foldl_keeps keeps after (sets _)

theorem plain_apply (o : Options) (argument : Argument) (h : o.Plain) :
    (apply o argument).Plain := by
  obtain ⟨henabled, hdisable, hinterval, hfeed, hhttp, hport, hnote⟩ := h
  cases argument <;> exact ⟨henabled, hdisable, hinterval, hfeed, hhttp, hport, hnote⟩

/-- A command line that names the log and asks for one worker does just that; where it says
nothing, the defaults hold. -/
theorem parse_flatMap (cores : Nat) (hlog : .logFile ∈ arguments)
    (hworker : .oneWorker ∈ arguments) :
    ∃ o, Options.parse cores (arguments.flatMap words) = .ok o ∧ o.Plain ∧
      o.config.logFile = ascii "q.log" ∧ o.workers = 1 := by
  have hplain : (arguments.foldl apply (.default cores)).Plain :=
    foldl_keeps plain_apply arguments (Options.Plain.default cores)
  have hfile : (arguments.foldl apply (.default cores)).config.logFile = ascii "q.log" :=
    foldl_of_mem (P := fun o => o.config.logFile = ascii "q.log")
      (fun o argument h => by cases argument <;> first | exact h | rfl) (fun _ => rfl) hlog _
  have hone : (arguments.foldl apply (.default cores)).workers = 1 :=
    foldl_of_mem (P := fun o => o.workers = 1)
      (fun o argument h => by cases argument <;> first | exact h | rfl) (fun _ => rfl) hworker _
  refine ⟨_, ?_, hplain, hfile, hone⟩
  rw [Options.parse, read_flatMap]
  simp only [hplain.httpPort_eq]
  exact if_pos (by decide)

end Argument

end ResolverLog
