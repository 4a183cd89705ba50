import Columnar.Classification
import Columnar.Estimator.RowPlan
import Columnar.Json.ConfigText
import Columnar.Proofs.Pricing

/-!
# Checked configurations

A configuration is checked wherever something is made from it: by itself, before the rows to read
are planned, before workers are hired, and, for its ratio and block size alone, where a share of
the rows is planned. The conditions are written out in each of these places. They agree
(`Config.checks_agree`): each place refuses what the configuration's own check refuses, and names
the same fault, which is the first one in the order ratio, workers, block size
(`Config.validate_eq_error_iff`). What is read from a text has passed the check, so it is refused
nowhere.
-/

namespace Columnar

theorem isSamplingRatio_iff {ratio : Float} :
    isSamplingRatio ratio = true ↔ 0 < ratio ∧ ratio ≤ 1 := by
  simp [isSamplingRatio]

namespace Config

variable {c : Config} {failure : PlanError}

/-- Nothing is wrong with a configuration. -/
structure IsValid (c : Config) : Prop where
  ratio : 0 < c.samplingRatio ∧ c.samplingRatio ≤ 1
  threads : 0 < c.threads
  blockSize : 0 < c.blockSize

/-- The first thing that is wrong with a configuration, in the order ratio, workers, block size. -/
inductive FirstFault (c : Config) : ConfigFault → Prop
  | samplingRatio (outside : ¬ (0 < c.samplingRatio ∧ c.samplingRatio ≤ 1)) :
    FirstFault c (.samplingRatio c.samplingRatio)
  | noThreads (ratio : 0 < c.samplingRatio ∧ c.samplingRatio ≤ 1) (none : c.threads = 0) :
    FirstFault c .noThreads
  | zeroBlockSize (ratio : 0 < c.samplingRatio ∧ c.samplingRatio ≤ 1) (threads : 0 < c.threads)
    (zero : c.blockSize = 0) : FirstFault c .zeroBlockSize

theorem validate_of_firstFault {fault : ConfigFault} (first : c.FirstFault fault) :
    c.validate = .error (.invalidConfig fault) := by
  unfold validate
  cases first with
  | samplingRatio outside =>
    rw [← isSamplingRatio_iff, Bool.not_eq_true] at outside
    simp [outside]
  | noThreads ratio none => simp [isSamplingRatio_iff.mpr ratio, none]
  | zeroBlockSize ratio threads zero =>
    simp [isSamplingRatio_iff.mpr ratio, threads.ne', zero]

theorem validate_of_isValid (valid : c.IsValid) : c.validate = .ok () := by
  unfold validate
  simp [isSamplingRatio_iff.mpr valid.ratio, valid.threads.ne', valid.blockSize.ne']

/-- A configuration is valid, or something is the first thing that is wrong with it. -/
theorem isValid_or_firstFault (c : Config) : c.IsValid ∨ ∃ fault, c.FirstFault fault := by
  by_cases ratio : 0 < c.samplingRatio ∧ c.samplingRatio ≤ 1
  · rcases c.threads.eq_zero_or_pos with none | threads
    · exact .inr ⟨_, .noThreads ratio none⟩
    · rcases c.blockSize.eq_zero_or_pos with zero | blockSize
      · exact .inr ⟨_, .zeroBlockSize ratio threads zero⟩
      · exact .inl ⟨ratio, threads, blockSize⟩
  · exact .inr ⟨_, .samplingRatio ratio⟩

/-- **The check names the first fault.** -/
theorem validate_eq_error_iff :
    c.validate = .error failure ↔ ∃ fault, c.FirstFault fault ∧ failure = .invalidConfig fault := by
  constructor
  · intro refused
    rcases c.isValid_or_firstFault with valid | ⟨fault, first⟩
    · cases (validate_of_isValid valid).symm.trans refused
    · refine ⟨fault, first, ?_⟩
      cases (validate_of_firstFault first).symm.trans refused
      rfl
  · rintro ⟨fault, first, rfl⟩
    exact validate_of_firstFault first

theorem validate_eq_ok_iff : c.validate = .ok () ↔ c.IsValid := by
  constructor
  · intro accepted
    rcases c.isValid_or_firstFault with valid | ⟨fault, first⟩
    · exact valid
    · cases (validate_of_firstFault first).symm.trans accepted
  · exact validate_of_isValid

/-- What is read from a text is valid. -/
theorem isValid_of_ofJson {hostThreads : Nat} {text : String}
    (read : ofJson hostThreads text = .ok c) : c.IsValid := by
  obtain ⟨overrides, -, read⟩ := exists_of_bind_eq_ok read
  obtain ⟨_, accepted, read⟩ := exists_of_bind_eq_ok read
  cases read
  exact validate_eq_ok_iff.mp accepted

/-! ### Places that check -/

/-- What is made from a configuration is refused for its first fault, and made if there is none. -/
structure Checks (c : Config) {α : Type} (made : Except PlanError α) : Prop where
  refused : ∀ fault, c.FirstFault fault → made = .error (.invalidConfig fault)
  accepted : c.IsValid → ∃ a, made = .ok a

section Checks

variable {α : Type} {made : Except PlanError α}

/-- Such a place fails as the check fails. -/
theorem Checks.error_iff (checks : c.Checks made) :
    made = .error failure ↔ c.validate = .error failure := by
  rcases c.isValid_or_firstFault with valid | ⟨fault, first⟩
  · obtain ⟨a, success⟩ := checks.accepted valid
    simp [success, validate_of_isValid valid]
  · simp [checks.refused fault first, validate_of_firstFault first]

/-- What is made after the check need not fail any more. -/
theorem Checks.of_validate {next : Unit → Except PlanError α}
    (accepted : c.IsValid → ∃ a, next () = .ok a) : c.Checks (c.validate >>= next) where
  refused fault first := by
    rw [validate_of_firstFault first]
    rfl
  accepted valid := by
    rw [validate_of_isValid valid]
    exact accepted valid

end Checks

end Config

namespace RowPlan

variable {c : Config} {binding : Binding}

/-- The plan of a valid configuration. -/
def ofValid (matrix : Matrix) (config : Config) (seed : UInt64) (select : Selector) :
    Except PlanError RowPlan :=
  let view : View := ⟨matrix, config.transposeInput⟩
  let binding : Binding := { view, select, blockSize := config.blockSize }
  if config.samplingRatio == 1 || config.sampleOnce then
    ofRatio binding view.rows seed config.samplingRatio
  else
    .ok (.sampled (SampleEstimator.ofSize binding (sampleSize view.rows config.samplingRatio)
      seed).withPerColumnSamples)

theorem ofConfig_eq (matrix : Matrix) (config : Config) (fresh : UInt64) (select : Selector) :
    ofConfig matrix config fresh select =
      config.validate >>= fun _ => ofValid matrix config (config.resolveSeed fresh) select := rfl

/-- A share of the rows is planned after the checks of its ratio and its block size. -/
theorem checks_ofRatio (threads : 0 < c.threads) (blockSize : binding.blockSize = c.blockSize)
    (rows : Nat) (seed : UInt64) : c.Checks (ofRatio binding rows seed c.samplingRatio) where
  refused fault first := by
    unfold ofRatio
    cases first with
    | samplingRatio outside =>
      rw [← isSamplingRatio_iff, Bool.not_eq_true] at outside
      simp [outside]
    | noThreads _ none => exact absurd none threads.ne'
    | zeroBlockSize ratio _ zero => simp [isSamplingRatio_iff.mpr ratio, blockSize, zero]
  accepted valid := by
    unfold ofRatio
    have positive : binding.blockSize ≠ 0 := blockSize ▸ valid.blockSize.ne'
    simp only [isSamplingRatio_iff.mpr valid.ratio, positive, Bool.not_true, Bool.false_eq_true,
      if_false]
    split
    · exact ⟨_, rfl⟩
    · exact ⟨_, rfl⟩

/-- A plan for a table is made after the check, with a shared sample or one for each column. -/
theorem checks_ofConfig (matrix : Matrix) (c : Config) (fresh : UInt64) (select : Selector) :
    c.Checks (ofConfig matrix c fresh select) := by
  rw [ofConfig_eq]
  apply Config.Checks.of_validate
  intro valid
  unfold ofValid
  simp only
  split
  · exact (checks_ofRatio valid.threads rfl ..).accepted valid
  · exact ⟨_, rfl⟩

end RowPlan

/-- Workers are hired after the check, which includes their own. -/
theorem Classifier.checks_ofConfig (c : Config) : c.Checks (Classifier.ofConfig c) := by
  apply Config.Checks.of_validate
  intro valid
  have some : ¬ c.threads < 1 := Nat.not_lt.mpr valid.threads
  exact ⟨_, by simp only [ofWorkers, WorkerPool.ofWorkers, some, if_false]; rfl⟩

namespace Config

/-- The places that check a configuration agree with its own check. -/
structure ChecksAgree (c : Config) (matrix : Matrix) (fresh : UInt64) : Prop where
  /-- The check fails for the first fault. -/
  named : ∀ failure, c.validate = .error failure ↔
    ∃ fault, c.FirstFault fault ∧ failure = .invalidConfig fault
  /-- A plan for a table fails as the check fails. -/
  planned : ∀ failure, RowPlan.ofConfig matrix c fresh = .error failure ↔
    c.validate = .error failure
  /-- So does a classifier. -/
  hired : ∀ failure, Classifier.ofConfig c = .error failure ↔ c.validate = .error failure
  /-- So does a share of the rows, as long as there are workers. -/
  shared : 0 < c.threads → ∀ binding : Binding, binding.blockSize = c.blockSize →
    ∀ rows seed failure, RowPlan.ofRatio binding rows seed c.samplingRatio = .error failure ↔
      c.validate = .error failure
  /-- What is read from a text gets both. -/
  read : ∀ hostThreads text, ofJson hostThreads text = .ok c →
    (∃ plan, RowPlan.ofConfig matrix c fresh = .ok plan) ∧
      ∃ classifier, Classifier.ofConfig c = .ok classifier

/-- **All checks of a configuration agree**, for every table and every combination of faults. -/
theorem checks_agree (c : Config) (matrix : Matrix) (fresh : UInt64) :
    c.ChecksAgree matrix fresh where
  named _ := validate_eq_error_iff
  planned _ := (RowPlan.checks_ofConfig matrix c fresh _).error_iff
  hired _ := (Classifier.checks_ofConfig c).error_iff
  shared threads _ blockSize rows seed _ :=
    (RowPlan.checks_ofRatio threads blockSize rows seed).error_iff
  read _ _ text :=
    have valid := isValid_of_ofJson text
    ⟨(RowPlan.checks_ofConfig matrix c fresh _).accepted valid,
      (Classifier.checks_ofConfig c).accepted valid⟩

/-- The ratio is named although the block size is wrong as well; and a text is read that asks for a
sample of each column. -/
theorem checks_agree_two_faults :
    let table : Matrix := ⟨1, 1, #[1], rfl, by decide, by decide⟩
    let faulty : Config := { Config.sampled 2 Float.nan 7 with blockSize := 0 }
    let binding : Binding := { view := ⟨table, false⟩, blockSize := 0 }
    let text := "\x7b\"sampling_ratio\":0.25,\"sample_once\":false\x7d"
    let given : Config := { Config.default 4 with samplingRatio := 0.25, sampleOnce := false }
    0 < faulty.threads ∧ binding.blockSize = faulty.blockSize ∧
      RowPlan.ofRatio binding 1 7 faulty.samplingRatio =
        .error (.invalidConfig (.samplingRatio Float.nan)) ∧
      ofJson 4 text = .ok given ∧ (∃ plan, RowPlan.ofConfig table given 7 = .ok plan) ∧
        ∃ classifier, Classifier.ofConfig given = .ok classifier := by
  intro table faulty binding text given
  have workers : 0 < faulty.threads := by decide
  have first : faulty.FirstFault (.samplingRatio Float.nan) := .samplingRatio (by decide)
  have agree := checks_agree faulty table 7
  have refused := (agree.shared workers binding rfl 1 7 _).mpr ((agree.named _).mpr ⟨_, first, rfl⟩)
  have read : (ofJson 4 text).toOption = some given := by decide +kernel
  have read' : ofJson 4 text = .ok given := by
    cases outcome : ofJson 4 text with
    | error failure => simp [outcome, Except.toOption] at read
    | ok c => simpa [outcome, Except.toOption] using read
  exact ⟨workers, rfl, refused, read', (checks_agree given table 7).read 4 text read'⟩

end Config

end Columnar
