import Columnar.Proofs.Pricing

/-!
# What a size model is asked

A pricing asks its model for one encoding after the other and stops at the first failure. Asking
for the value of each encoding is asking along `Encoding.all` (`PerEncoding.toList_build`), in any
monad, so both what is answered (`mapM_eq_ok_iff`, `exists_first_failure`) and, in a monad that
keeps a record, what has been asked (`Recorded.asks_mapM`) are found by induction on that list: the
encodings up to the first failure. Offset lists that are skipped are left out of the record
(`Pricing.asked`). Together with the search for the cheapest encoding this says all that a pricing
does (`Pricing.consults_model`).
-/

namespace Columnar

/-! ### Asking along a list -/

section Lists

variable {ε α β : Type} {ask : α → Except ε β} {xs : List α}

theorem mapM_eq_ok_iff {ys : List β} :
    xs.mapM ask = .ok ys ↔ List.Forall₂ (fun x y => ask x = .ok y) xs ys := by
  induction xs generalizing ys with
  | nil =>
    rw [List.mapM_nil, List.forall₂_nil_left_iff]
    constructor
    · rintro ⟨⟩
      rfl
    · rintro rfl
      rfl
  | cons x rest ih =>
    rw [List.mapM_cons, List.forall₂_cons_left_iff]
    constructor
    · intro success
      obtain ⟨y, head, success⟩ := exists_of_bind_eq_ok success
      obtain ⟨later, tail, success⟩ := exists_of_bind_eq_ok success
      cases success
      exact ⟨y, later, head, ih.mp tail, rfl⟩
    · rintro ⟨y, later, head, tail, rfl⟩
      rw [head, ih.mpr tail]
      rfl

/-- Asking along a list fails as the first question does that fails. -/
theorem exists_first_failure {failure : ε} (fails : xs.mapM ask = .error failure) :
    ∃ before x after, xs = before ++ x :: after ∧ (∀ x' ∈ before, ∃ y, ask x' = .ok y) ∧
      ask x = .error failure := by
  induction xs with
  | nil => cases fails
  | cons first rest ih =>
    rw [List.mapM_cons] at fails
    cases head : ask first with
    | error other =>
      rw [head] at fails
      cases fails
      exact ⟨[], first, rest, rfl, by simp, head⟩
    | ok y =>
      cases tail : rest.mapM ask with
      | ok ys =>
        rw [head, tail] at fails
        cases fails
      | error later =>
        rw [head, tail] at fails
        cases fails
        obtain ⟨before, x, after, rfl, answered, failed⟩ := ih tail
        exact ⟨first :: before, x, after, rfl,
          List.forall_mem_cons.mpr ⟨⟨y, head⟩, answered⟩, failed⟩

end Lists

namespace PerEncoding

variable {α : Type} {p : PerEncoding α}

/-- Asking for a value of each encoding is asking along the list of all encodings. -/
theorem toList_build {m : Type → Type} [Monad m] [LawfulMonad m] (ask : Encoding → m α) :
    toList <$> build ask = Encoding.all.mapM ask := by
  simp [build, Encoding.all, toList, get]

section Except

variable {ε : Type} {ask : Encoding → Except ε α}

theorem build_eq_ok (success : build ask = .ok p) (e : Encoding) : ask e = .ok (p.get e) := by
  have answers := toList_build ask
  rw [success] at answers
  have each := List.forall₂_map_right_iff.mp (mapM_eq_ok_iff.mp answers.symm)
  exact List.forall₂_same.mp each e (by cases e <;> simp [Encoding.all])

theorem build_eq_error_iff {failure : ε} :
    build ask = .error failure ↔ Encoding.all.mapM ask = .error failure := by
  rw [← toList_build]
  cases build ask with
  | error other =>
    constructor <;>
    · rintro ⟨⟩
      rfl
  | ok p => exact iff_of_false nofun nofun

end Except

theorem toList_injective : Function.Injective (toList : PerEncoding α → List α) := by
  intro p q same
  refine eq_of_get fun e => List.map_inj_left.mp same e ?_
  cases e <;> simp [Encoding.all]

end PerEncoding

/-! ### Asking on record -/

/-- Questions that may fail, with a record of what has been asked. -/
abbrev Recorded := ExceptT PlanError (StateM (List Encoding))

namespace Recorded

variable {α β : Type}

/-- Records a question and answers it. -/
def ask (answer : Encoding → Except PlanError ℕ) (e : Encoding) : Recorded ℕ :=
  ExceptT.mk fun record => (answer e, record ++ [e])

/-- Whatever has been asked before, the questions are the given ones and come to the answer. -/
def Asks (questions : Recorded α) (answer : Except PlanError α) (asked : List Encoding) : Prop :=
  ∀ record, questions.run.run record = (answer, record ++ asked)

theorem asks_pure (a : α) : Asks (pure a) (.ok a) [] :=
  fun record => Prod.ext rfl (List.append_nil record).symm

theorem asks_ask (answer : Encoding → Except PlanError ℕ) (e : Encoding) :
    Asks (ask answer e) (answer e) [e] := fun _ => rfl

/-- What is asked next, which is nothing after a failure. -/
def ifAnswered (later : List Encoding) : Except PlanError α → List Encoding
  | .ok _ => later
  | .error _ => []

theorem ifAnswered_nil (a : Except PlanError α) : ifAnswered [] a = [] := by
  cases a <;> rfl

section Bind

variable {first : Recorded α} {a : Except PlanError α} {asked later : List Encoding}

/-- What follows on a question is asked if that has been answered. -/
theorem Asks.bind (begins : Asks first a asked) {next : α → Recorded β}
    {b : α → Except PlanError β} (goesOn : ∀ v, Asks (next v) (b v) later) :
    Asks (first >>= next) (a >>= b) (asked ++ ifAnswered later a) := by
  intro record
  rw [ExceptT.run_bind, StateT.run_bind, begins record]
  cases a with
  | ok v =>
    rw [← List.append_assoc]
    exact goesOn v (record ++ asked)
  | error failure => exact Prod.ext rfl (congrArg (record ++ ·) (List.append_nil asked).symm)

theorem Asks.bind_pure (begins : Asks first a asked) (f : α → β) :
    Asks (do return f (← first)) (do return f (← a)) asked := by
  have done := begins.bind fun v => asks_pure (f v)
  rw [ifAnswered_nil, List.append_nil] at done
  exact done

end Bind

/-- The encodings up to the first one at which the answer is a failure. -/
def upToFailure (answer : Encoding → Except PlanError ℕ) : List Encoding → List Encoding
  | [] => []
  | e :: rest => [e] ++ ifAnswered (upToFailure answer rest) (answer e)

section Lists

variable {answer : Encoding → Except PlanError ℕ} {es : List Encoding}

theorem upToFailure_of_answered (answered : ∀ e ∈ es, ∃ size, answer e = .ok size) :
    upToFailure answer es = es := by
  induction es with
  | nil => rfl
  | cons e rest ih =>
    obtain ⟨⟨size, head⟩, tail⟩ := List.forall_mem_cons.mp answered
    rw [upToFailure, head, ifAnswered, ih tail, List.singleton_append]

theorem upToFailure_append {e : Encoding} {failure : PlanError}
    (answered : ∀ e ∈ es, ∃ size, answer e = .ok size) (fails : answer e = .error failure)
    (after : List Encoding) : upToFailure answer (es ++ e :: after) = es ++ [e] := by
  induction es with
  | nil =>
    rw [List.nil_append, List.nil_append, upToFailure, fails, ifAnswered, List.append_nil]
  | cons first rest ih =>
    obtain ⟨⟨size, head⟩, tail⟩ := List.forall_mem_cons.mp answered
    rw [List.cons_append, upToFailure, head, ifAnswered, ih tail, List.singleton_append,
      List.cons_append]

/-- Along a list of which some answers are known, the others are asked for up to the first
failure. -/
theorem asks_mapM (answer : Encoding → Except PlanError ℕ) (known : Encoding → Prop)
    [DecidablePred known] (size : ℕ) (es : List Encoding) :
    Asks (es.mapM fun e => if known e then pure size else ask answer e)
      (es.mapM fun e => if known e then pure size else answer e)
      (upToFailure answer (es.filter fun e => ¬ known e)) := by
  induction es with
  | nil => exact asks_pure []
  | cons e rest ih =>
    rw [List.mapM_cons, List.mapM_cons]
    by_cases passed : known e
    · rw [if_pos passed, if_pos passed, List.filter_cons_of_neg (by simpa using passed)]
      exact (asks_pure size).bind fun v => ih.bind_pure (v :: ·)
    · rw [if_neg passed, if_neg passed, List.filter_cons_of_pos (by simpa using passed)]
      exact (asks_ask answer e).bind fun v => ih.bind_pure (v :: ·)

end Lists

theorem map_injective {f : α → β} (injective : Function.Injective f) :
    Function.Injective (Except.map f : Except PlanError α → Except PlanError β) := by
  intro a a' same
  cases a with
  | error failure =>
    cases a' with
    | error failure' => exact congrArg Except.error (Except.error.inj same)
    | ok v' => cases same
  | ok v =>
    cases a' with
    | error failure' => cases same
    | ok v' => exact congrArg Except.ok (injective (Except.ok.inj same))

/-- Questions whose answer is carried over one to one are the same questions. -/
theorem Asks.of_map {questions : Recorded α} {a : Except PlanError α} {asked : List Encoding}
    {f : α → β} (injective : Function.Injective f) (asks : Asks (f <$> questions) (f <$> a) asked) :
    Asks questions a asked := by
  intro record
  have run := asks record
  rw [ExceptT.run_map, StateT.run_map] at run
  have same : Except.map f (questions.run.run record).1 = Except.map f a := congrArg Prod.fst run
  have after : (questions.run.run record).2 = record ++ asked := congrArg Prod.snd run
  exact Prod.ext (map_injective injective same) after

end Recorded

/-! ### Pricings -/

namespace Pricing

/-- Whether a pricing asks for the size under an encoding. Offset lists are left out up to twice the
block size of tuples. -/
def isAsked (vals blockSize : ℕ) (e : Encoding) : Bool :=
  e ≠ .offsetList ∨ 2 * blockSize < vals

/-- The encodings whose sizes a pricing asks for, in order. -/
def asked (vals blockSize : ℕ) : List Encoding := Encoding.all.filter (isAsked vals blockSize)

variable {vals blockSize : ℕ} {e : Encoding}

theorem skips_iff : (e = .offsetList ∧ skipsOffsetList vals blockSize = true) ↔
    ¬ (e ≠ .offsetList ∨ 2 * blockSize < vals) := by
  rw [skipsOffsetList, decide_eq_true_iff]
  push Not
  exact Iff.rfl

theorem mem_asked : e ∈ asked vals blockSize ↔ e ≠ .offsetList ∨ 2 * blockSize < vals := by
  have listed : e ∈ Encoding.all := by cases e <;> simp [Encoding.all]
  rw [asked, List.mem_filter, and_iff_right listed, isAsked, decide_eq_true_iff]

theorem asks_priceAll (vals blockSize : ℕ) (answer : Encoding → Except PlanError ℕ) :
    Recorded.Asks (priceAll vals blockSize (Recorded.ask answer)) (priceAll vals blockSize answer)
      (Recorded.upToFailure answer (asked vals blockSize)) := by
  apply Recorded.Asks.of_map PerEncoding.toList_injective
  have others : Encoding.all.filter (fun e => ¬ (e = .offsetList ∧
      skipsOffsetList vals blockSize = true)) = asked vals blockSize :=
    List.filter_congr fun e _ => by simp only [skips_iff, not_not, isAsked]
  rw [← others, priceAll, PerEncoding.toList_build, priceAll, PerEncoding.toList_build]
  exact Recorded.asks_mapM answer _ maxSize Encoding.all

/-- What a pricing takes for an encoding: what the model answers, or `maxSize` unasked. -/
def entry (model : SizeModel) (f : Factors) (blockSize : ℕ) (e : Encoding) : Except PlanError ℕ :=
  if e = .offsetList ∧ skipsOffsetList f.vals blockSize then pure maxSize else model e f

section Entries

variable {model : SizeModel} {f : Factors} {p : Pricing}

theorem entry_of_asked (mem : e ∈ asked f.vals blockSize) :
    entry model f blockSize e = model e f :=
  if_neg fun skipped => skips_iff.mp skipped (mem_asked.mp mem)

theorem entry_of_not_asked (skipped : e ∉ asked f.vals blockSize) :
    entry model f blockSize e = .ok maxSize :=
  if_pos (skips_iff.mpr fun others => skipped (mem_asked.mpr others))

theorem asked_of_entry_eq_error {failure : PlanError}
    (fails : entry model f blockSize e = .error failure) : e ∈ asked f.vals blockSize := by
  by_contra skipped
  cases (entry_of_not_asked skipped).symm.trans fails

/-- The sizes of a pricing are the entries, asked for along the list of all encodings. -/
theorem sizes_ofFactors (model : SizeModel) (f : Factors) (blockSize : ℕ) :
    Pricing.sizes <$> ofFactors f model blockSize =
      priceAll f.vals blockSize fun e => model e f := by
  rw [ofFactors]
  cases priceAll f.vals blockSize fun e => model e f <;> rfl

theorem entry_of_ofFactors (priced : ofFactors f model blockSize = .ok p) (e : Encoding) :
    entry model f blockSize e = .ok (p.sizes.get e) := by
  have sizes := sizes_ofFactors model f blockSize
  rw [priced] at sizes
  exact PerEncoding.build_eq_ok sizes.symm e

/-- A pricing fails as the first question fails that does. -/
theorem exists_failing_question {failure : PlanError}
    (fails : ofFactors f model blockSize = .error failure) : ∃ before e after,
      asked f.vals blockSize = before ++ e :: after ∧
        (∀ e' ∈ before, ∃ size, model e' f = .ok size) ∧ model e f = .error failure := by
  have noSizes := sizes_ofFactors model f blockSize
  rw [fails] at noSizes
  obtain ⟨before, e, after, split, answered, failed⟩ :=
    exists_first_failure (PerEncoding.build_eq_error_iff.mp noSizes.symm)
  have mem : e ∈ asked f.vals blockSize := asked_of_entry_eq_error failed
  refine ⟨before.filter (isAsked f.vals blockSize), e, after.filter (isAsked f.vals blockSize),
    ?_, ?_, (entry_of_asked mem).symm.trans failed⟩
  · rw [asked, split, List.filter_append, List.filter_cons_of_pos (List.mem_filter.mp mem).2]
  · intro e' mem'
    obtain ⟨inFront, others⟩ := List.mem_filter.mp mem'
    obtain ⟨size, success⟩ := answered e' inFront
    have asked' : e' ∈ asked f.vals blockSize := mem_asked.mpr (of_decide_eq_true others)
    exact ⟨size, (entry_of_asked asked').symm.trans success⟩

end Entries

/-- What becomes of a group that is priced by a model which is asked along `record`. -/
structure Consults (model : SizeModel) (f : Factors) (blockSize : ℕ)
    (answer : Except PlanError Pricing) (record : List Encoding) : Prop where
  /-- Twice the block size fits 64 bits. -/
  threshold : 2 * blockSize ≤ maxSize
  /-- The pricing fails if the model fails for an encoding that is asked for. -/
  fails_iff : (∃ failure, answer = .error failure) ↔
    ∃ e ∈ asked f.vals blockSize, ∃ failure, model e f = .error failure
  /-- Its failure is the first one, and nothing is asked after that. -/
  failed : ∀ failure, answer = .error failure → ∃ before e after,
    asked f.vals blockSize = before ++ e :: after ∧
      (∀ e' ∈ before, ∃ size, model e' f = .ok size) ∧ model e f = .error failure ∧
      record = before ++ [e]
  /-- Otherwise everything is asked once, in order, and the sizes are the answers. -/
  answered : ∀ p, answer = .ok p → record = asked f.vals blockSize ∧ p.factors = f ∧
    (∀ e ∈ asked f.vals blockSize, model e f = .ok (p.sizes.get e)) ∧
    ∀ e ∉ asked f.vals blockSize, p.sizes.get e = maxSize
  /-- What the model says of an encoding that is not asked for does not show. -/
  unseen : ∀ model' : SizeModel, (∀ e ∈ asked f.vals blockSize, model' e f = model e f) →
    ofFactors f model' blockSize = answer
  /-- The least size is that of the first encoding which no other one undercuts. -/
  least : ∀ p, answer = .ok p → p.sizes.get p.bestEncoding = p.minSize ∧
    ∀ e, p.minSize ≤ p.sizes.get e ∧
      (p.sizes.get e = p.minSize → p.bestEncoding.index ≤ e.index)

/-- **A pricing asks its model once for each encoding, in order, until it fails.** Only offset
lists are left out, up to twice the block size of tuples, and with them whatever the model would
say. The record is that of the same questions, asked on record; they come to the same answer. -/
theorem consults_model (model : SizeModel) (f : Factors) {blockSize : ℕ}
    (countable : blockSize ≤ maxCount) :
    let answer := ofFactors f model blockSize
    ∃ record, (priceAll f.vals blockSize (Recorded.ask fun e => model e f)).run.run [] =
        (Pricing.sizes <$> answer, record) ∧
      Consults model f blockSize answer record := by
  intro answer
  have asks := asks_priceAll f.vals blockSize (fun e => model e f) []
  rw [← sizes_ofFactors, List.nil_append] at asks
  refine ⟨_, asks, ?_⟩
  constructor
  case threshold => exact (Nat.mul_le_mul_left 2 countable).trans (by decide)
  case fails_iff =>
    constructor
    · rintro ⟨failure, fails⟩
      obtain ⟨before, e, after, split, -, failed⟩ := exists_failing_question fails
      exact ⟨e, by simp [split], failure, failed⟩
    · rintro ⟨e, mem, failure, fails⟩
      cases priced : answer with
      | error other => exact ⟨other, rfl⟩
      | ok p =>
        have success := (entry_of_asked mem).symm.trans (entry_of_ofFactors priced e)
        cases fails.symm.trans success
  case failed =>
    intro failure fails
    obtain ⟨before, e, after, split, answered, failed⟩ := exists_failing_question fails
    refine ⟨before, e, after, split, answered, failed, ?_⟩
    rw [split]
    exact Recorded.upToFailure_append answered failed after
  case answered =>
    intro p priced
    have answers : ∀ e ∈ asked f.vals blockSize, model e f = .ok (p.sizes.get e) :=
      fun e mem => (entry_of_asked mem).symm.trans (entry_of_ofFactors priced e)
    refine ⟨Recorded.upToFailure_of_answered fun e mem => ⟨_, answers e mem⟩,
      factors_of_ofFactors priced, answers, fun e skipped => ?_⟩
    have entry := (entry_of_not_asked skipped).symm.trans (entry_of_ofFactors priced e)
    exact (Except.ok.inj entry).symm
  case unseen =>
    intro model' same
    have entries : entry model' f blockSize = entry model f blockSize := by
      funext e
      by_cases mem : e ∈ asked f.vals blockSize
      · rw [entry_of_asked mem, entry_of_asked mem, same e mem]
      · rw [entry_of_not_asked mem, entry_of_not_asked mem]
    show PerEncoding.build (entry model' f blockSize) >>= _ =
      PerEncoding.build (entry model f blockSize) >>= _
    rw [entries]
  case least =>
    intro p _
    refine ⟨p.sizes.cheapest_eq_get.symm, fun e => ⟨p.minSize_le e, fun least => ?_⟩⟩
    by_contra later
    have larger := p.sizes.cheapest_lt_get (Nat.lt_of_not_le later)
    exact absurd least larger.ne'

/-- A model that never prices offset lists, and up to fourteen tuples in blocks of seven is not
asked for them. -/
theorem consults_model_no_lists :
    let f : Factors := ⟨14, 20, 14, 14, 8, 100, 3, 1⟩
    let model : SizeModel := fun e f =>
      if e = .offsetList then .error (.sizeModel "no lists") else .ok (f.vals + e.index)
    let answer := ofFactors f model 7
    7 ≤ maxCount ∧ (∃ p, answer = .ok p ∧ p.bestEncoding = .dict1) ∧
      ∃ record, (priceAll f.vals 7 (Recorded.ask fun e => model e f)).run.run [] =
          (Pricing.sizes <$> answer, record) ∧
        Consults model f 7 answer record := by
  intro f model answer
  have countable : 7 ≤ maxCount := by decide
  exact ⟨countable, ⟨_, rfl, by decide⟩, consults_model model f countable⟩

end Pricing

end Columnar
