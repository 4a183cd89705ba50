import Columnar.Pricing
import Mathlib

/-!
# Priced groups

The least size of a pricing is the size of some encoding and no larger than that of any
(`cheapest_eq_get`, `cheapest_le_get`); every encoding in front of that one is larger
(`cheapest_lt_get`). A model that answers whatever it is asked prices the group, and each encoding
has its answer (`Pricing.ofFactors_of_answers`).
-/

namespace Columnar

namespace EncodingSizes

/-- One step of the search for the cheapest encoding. -/
def cheaper (best entry : Encoding × ℕ) : Encoding × ℕ := if entry.2 < best.2 then entry else best

theorem cheaper_le (best entry : Encoding × ℕ) :
    (cheaper best entry).2 ≤ best.2 ∧ (cheaper best entry).2 ≤ entry.2 := by
  unfold cheaper
  split <;> omega

theorem foldl_cheaper_le (entries : List (Encoding × ℕ)) (best : Encoding × ℕ) :
    ∀ entry ∈ best :: entries, (entries.foldl cheaper best).2 ≤ entry.2 := by
  induction entries generalizing best with
  | nil =>
    intro entry mem
    rw [List.mem_singleton.mp mem]
    exact Nat.le_refl _
  | cons next rest ih =>
    obtain ⟨leBest, leNext⟩ := cheaper_le best next
    have least := ih (cheaper best next) _ List.mem_cons_self
    rintro entry (_ | ⟨_, _ | ⟨_, later⟩⟩)
    · exact least.trans leBest
    · exact least.trans leNext
    · exact ih (cheaper best next) entry (List.mem_cons_of_mem _ later)

theorem foldl_cheaper_mem (entries : List (Encoding × ℕ)) (best : Encoding × ℕ) :
    entries.foldl cheaper best ∈ best :: entries := by
  induction entries generalizing best with
  | nil => exact List.mem_cons_self
  | cons next rest ih =>
    rcases List.mem_cons.mp (ih (cheaper best next)) with same | later
    · rw [List.foldl_cons, same, cheaper]
      split
      · exact List.mem_cons_of_mem _ List.mem_cons_self
      · exact List.mem_cons_self
    · exact List.mem_cons_of_mem _ (List.mem_cons_of_mem _ later)

/-- Of the entries looked at before the chosen one, each is larger: of equally cheap ones the first
is chosen. -/
theorem foldl_cheaper_first (entries : List (Encoding × ℕ)) (best : Encoding × ℕ) :
    ∃ before after, best :: entries = before ++ entries.foldl cheaper best :: after ∧
      ∀ entry ∈ before, (entries.foldl cheaper best).2 < entry.2 := by
  induction entries generalizing best with
  | nil => exact ⟨[], [], rfl, by simp⟩
  | cons next rest ih =>
    obtain ⟨before, after, split, larger⟩ := ih (cheaper best next)
    rw [List.foldl_cons]
    generalize rest.foldl cheaper (cheaper best next) = chosen at split larger ⊢
    cases before with
    | nil =>
      obtain ⟨rfl, rfl⟩ := List.cons_eq_cons.mp split
      by_cases less : next.2 < best.2
      · have taken : cheaper best next = next := if_pos less
        rw [taken]
        exact ⟨[best], rest, rfl, by simpa using less⟩
      · have kept : cheaper best next = best := if_neg less
        rw [kept]
        exact ⟨[], next :: rest, rfl, by simp⟩
    | cons first between =>
      obtain ⟨rfl, rfl⟩ := List.cons_eq_cons.mp split
      obtain ⟨leBest, leNext⟩ := cheaper_le best next
      have less := larger _ List.mem_cons_self
      refine ⟨best :: next :: between, after, rfl, ?_⟩
      rintro entry (_ | ⟨_, _ | ⟨_, later⟩⟩)
      · exact less.trans_le leBest
      · exact less.trans_le leNext
      · exact larger entry (List.mem_cons_of_mem _ later)

variable (s : EncodingSizes)

theorem mem_entries_iff {entry : Encoding × ℕ} : entry ∈ s.entries ↔ entry.2 = s.get entry.1 := by
  obtain ⟨e, size⟩ := entry
  cases e <;> simp [PerEncoding.entries, Encoding.all, eq_comm]

/-- No encoding is cheaper than the cheapest. -/
theorem cheapest_le_get (e : Encoding) : s.cheapest.2 ≤ s.get e :=
  foldl_cheaper_le s.entries (.dict1, s.dict1) (e, s.get e)
    (List.mem_cons_of_mem _ (s.mem_entries_iff.mpr rfl))

/-- The least size is that of the cheapest encoding. -/
theorem cheapest_eq_get : s.cheapest.2 = s.get s.cheapest.1 := by
  rcases List.mem_cons.mp (foldl_cheaper_mem s.entries (.dict1, s.dict1)) with first | listed
  · rw [show s.cheapest = (.dict1, s.dict1) from first]
    rfl
  · exact s.mem_entries_iff.mp listed

/-- Every encoding in front of the cheapest one is larger. -/
theorem cheapest_lt_get {e : Encoding} (earlier : e.index < s.cheapest.1.index) :
    s.cheapest.2 < s.get e := by
  obtain ⟨before, after, split, larger⟩ := foldl_cheaper_first s.entries (.dict1, s.dict1)
  have ordered : ((Encoding.dict1, s.dict1) :: s.entries).Pairwise
      fun a b => a.1.index ≤ b.1.index := by
    simp [PerEncoding.entries, Encoding.all, Encoding.index]
  have mem : (e, s.get e) ∈ (Encoding.dict1, s.dict1) :: s.entries :=
    List.mem_cons_of_mem _ (s.mem_entries_iff.mpr rfl)
  generalize chosen_eq : s.entries.foldl cheaper (.dict1, s.dict1) = chosen at split larger
  have cheapest_eq : s.cheapest = chosen := chosen_eq
  rw [cheapest_eq] at earlier ⊢
  rw [split] at ordered mem
  rcases List.mem_append.mp mem with inFront | same | ⟨_, later⟩
  · exact larger _ inFront
  · exact absurd earlier (lt_irrefl _)
  · have order := (List.pairwise_cons.mp (List.pairwise_append.mp ordered).2.1).1 _ later
    exact absurd earlier (Nat.not_lt.mpr order)

end EncodingSizes

/-- What succeeds has succeeded at its first step. -/
theorem exists_of_bind_eq_ok {ε α β : Type} {x : Except ε α} {next : α → Except ε β} {b : β}
    (success : x >>= next = .ok b) : ∃ a, x = .ok a ∧ next a = .ok b := by
  cases x with
  | error failure => cases success
  | ok a => exact ⟨a, rfl, success⟩

/-- A pricing keeps the factors that it prices. -/
theorem Pricing.factors_of_ofFactors {f : Factors} {model : SizeModel} {blockSize : ℕ} {p : Pricing}
    (priced : ofFactors f model blockSize = .ok p) : p.factors = f := by
  obtain ⟨sizes, -, answer⟩ := exists_of_bind_eq_ok priced
  cases answer
  rfl

/-- The sizes of a group for the answers of a model. Offset lists may be skipped. -/
def Pricing.sizesOf (answer : Encoding → ℕ) (vals blockSize : ℕ) : EncodingSizes :=
  ⟨answer .dict1, answer .dict2, answer .runLength,
    if skipsOffsetList vals blockSize then maxSize else answer .offsetList, answer .uncompressed⟩

/-- Every encoding has its answer, except for offset lists that are skipped. -/
theorem Pricing.get_sizesOf (answer : Encoding → ℕ) (vals blockSize : ℕ) (e : Encoding) :
    (sizesOf answer vals blockSize).get e =
      if e = .offsetList ∧ skipsOffsetList vals blockSize then maxSize else answer e := by
  cases e with
  | offsetList =>
    simp only [true_and]
    rfl
  | _ => rfl

/-- A model that answers prices the group. -/
theorem Pricing.ofFactors_of_answers {model : SizeModel} {f : Factors} {answer : Encoding → ℕ}
    {blockSize : ℕ} (answers : ∀ e, ¬ (e = .offsetList ∧ skipsOffsetList f.vals blockSize) →
      model e f = .ok (answer e)) :
    ofFactors f model blockSize = .ok ⟨f, sizesOf answer f.vals blockSize⟩ := by
  have asked : (fun e => if e = .offsetList ∧ skipsOffsetList f.vals blockSize then pure maxSize
      else model e f) = fun e => Except.ok ((sizesOf answer f.vals blockSize).get e) := by
    funext e
    rw [get_sizesOf]
    split
    · rfl
    · exact answers e ‹_›
  rw [ofFactors, priceAll, asked]
  rfl

theorem Pricing.minSize_le (p : Pricing) (e : Encoding) : p.minSize ≤ p.sizes.get e :=
  p.sizes.cheapest_le_get e

end Columnar
