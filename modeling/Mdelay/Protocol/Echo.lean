import Mathlib.Data.List.Range
import Mathlib.Data.List.Nodup
import Mathlib.Data.List.Perm.Subperm
import Mdelay.Library.Transition

/-!
# Numbered packets sent out and back

A requester numbers the packets it sends, a reflector returns them, and the requester notes the number and the
time of every packet that comes back. Times are opaque.
-/

namespace Echo

variable {T : Type*}

/-- The times of the packets by their numbers, the numbers on their way out and back, and the answers. -/
structure State (T : Type*) where
  sent : List T
  down : List Nat
  up : List Nat
  answers : List (Nat × T)

def State.start : State T := ⟨[], [], [], []⟩

inductive Action (T : Type*) where
  | send (t : T)
  | reflect (i : Nat)
  | answer (i : Nat) (t : T)
  | dropDown (i : Nat)
  | dropUp (i : Nat)
  | dupDown (i : Nat)
  | dupUp (i : Nat)

inductive Stepped : State T → Action T → State T → Prop
  | send (s t) : Stepped s (.send t) { s with sent := s.sent ++ [t], down := s.down ++ [s.sent.length] }
  | reflect {s i k} (found : s.down[i]? = some k) :
      Stepped s (.reflect i) { s with down := s.down.eraseIdx i, up := s.up ++ [k] }
  | answer {s i k} (t) (found : s.up[i]? = some k) :
      Stepped s (.answer i t) { s with up := s.up.eraseIdx i, answers := s.answers ++ [(k, t)] }
  | dropDown {s i k} (found : s.down[i]? = some k) : Stepped s (.dropDown i) { s with down := s.down.eraseIdx i }
  | dropUp {s i k} (found : s.up[i]? = some k) : Stepped s (.dropUp i) { s with up := s.up.eraseIdx i }
  | dupDown {s i k} (found : s.down[i]? = some k) : Stepped s (.dupDown i) { s with down := s.down ++ [k] }
  | dupUp {s i k} (found : s.up[i]? = some k) : Stepped s (.dupUp i) { s with up := s.up ++ [k] }

variable {s s' : State T} {a : Action T}

def State.answered (s : State T) : List Nat := s.answers.map Prod.fst

/-- All numbers there are: noted, on their way back, on their way out. -/
def State.numbers (s : State T) : List Nat := s.answered ++ s.up ++ s.down

/-- Numbers that a step brings up: a new packet, a copy. -/
def State.added (s : State T) : Action T → List Nat
  | .send _ => [s.sent.length]
  | .dupDown i => s.down[i]?.toList
  | .dupUp i => s.up[i]?.toList
  | .reflect _ | .answer _ _ | .dropDown _ | .dropUp _ => []

def State.lost (s : State T) : Action T → List Nat
  | .dropDown i => s.down[i]?.toList
  | .dropUp i => s.up[i]?.toList
  | .send _ | .reflect _ | .answer _ _ | .dupDown _ | .dupUp _ => []

theorem perm_eraseIdx {xs : List Nat} {i k : Nat} (found : xs[i]? = some k) : xs.Perm (k :: xs.eraseIdx i) := by
  obtain ⟨inside, rfl⟩ := List.getElem?_eq_some_iff.mp found
  exact (List.getElem_cons_eraseIdx_perm inside).symm

theorem numbers_step (stepped : Stepped s a s') : (s'.numbers ++ s.lost a).Perm (s.numbers ++ s.added a) := by
  rw [List.perm_iff_count]
  intro j
  cases stepped with
  | send t => simp [State.numbers, State.answered, State.lost, State.added]
  | reflect found | answer t found =>
    have taken := (perm_eraseIdx found).count_eq j
    simp only [State.numbers, State.answered, State.lost, State.added, List.count_append, List.count_cons, List.count_nil,
      List.map_append, List.map_cons, List.map_nil] at taken ⊢
    omega
  | dropDown found | dropUp found =>
    have taken := (perm_eraseIdx found).count_eq j
    simp only [State.numbers, State.answered, State.lost, State.added, found, Option.toList_some, List.count_append,
      List.count_cons, List.count_nil] at taken ⊢
    omega
  | dupDown found | dupUp found =>
    simp only [State.numbers, State.answered, State.lost, State.added, found, Option.toList_some, List.count_append,
      List.count_cons, List.count_nil]
    omega

theorem sent_step (stepped : Stepped s a s') :
    s'.sent.length = s.sent.length ∨ ∃ t, a = .send t ∧ s'.sent.length = s.sent.length + 1 := by
  cases stepped with
  | send t => exact Or.inr ⟨t, rfl, by simp⟩
  | reflect | answer | dropDown | dropUp | dupDown | dupUp => exact Or.inl rfl

/-! ### Every number has been sent -/

def State.Sound (s : State T) : Prop := ∀ k ∈ s.numbers, k < s.sent.length

theorem sound_start : (State.start : State T).Sound := by simp [State.Sound, State.numbers, State.answered, State.start]

theorem sound_step (sound : s.Sound) (stepped : Stepped s a s') : s'.Sound := by
  intro k member
  have before : k ∈ s.numbers ++ s.added a :=
    (numbers_step stepped).subset (List.mem_append_left _ member)
  have copied (xs : List Nat) (i : Nat) (inside : ∀ k ∈ xs, k ∈ s.numbers) (copy : k ∈ xs[i]?.toList) :
      k < s.sent.length := by
    rw [Option.mem_toList] at copy
    exact sound k (inside k (List.mem_of_getElem? copy))
  rcases List.mem_append.mp before with old | new
  · have := sound k old
    rcases sent_step stepped with same | ⟨t, -, more⟩ <;> omega
  · cases stepped with
    | send t =>
      obtain rfl := List.mem_singleton.mp new
      simp
    | reflect | answer | dropDown | dropUp => cases new
    | dupDown found => exact copied _ _ (fun k member => List.mem_append_right _ member) new
    | dupUp found => exact copied _ _ (fun k member => List.mem_append_left _ (List.mem_append_right _ member)) new

/-! ### Without copies every number is there once, or lost -/

def Action.Single : Action T → Prop
  | .dupDown _ | .dupUp _ => False
  | .send _ | .reflect _ | .answer _ _ | .dropDown _ | .dropUp _ => True

def State.Accounted (s : State T) (losses : List Nat) : Prop := (s.numbers ++ losses).Perm (List.range s.sent.length)

theorem accounted_start : (State.start : State T).Accounted [] := .nil

theorem accounted_step {losses : List Nat} (accounted : s.Accounted losses) (single : a.Single) (stepped : Stepped s a s') :
    s'.Accounted (losses ++ s.lost a) := by
  have whole : (s.numbers ++ s.added a ++ losses).Perm (List.range s'.sent.length) := by
    cases stepped with
    | send t =>
      rw [List.length_append, List.length_singleton, List.range_succ]
      have moved : (s.numbers ++ [s.sent.length] ++ losses).Perm (s.numbers ++ losses ++ [s.sent.length]) := by
        rw [List.append_assoc, List.append_assoc]
        exact List.perm_append_comm.append_left _
      exact moved.trans (accounted.append_right _)
    | reflect | answer | dropDown | dropUp =>
      rw [State.added, List.append_nil]
      exact accounted
    | dupDown | dupUp => exact single.elim
  have step := (numbers_step stepped).append_right losses
  refine (List.Perm.trans ?_ step).trans whole
  rw [List.append_assoc]
  exact List.perm_append_comm.append_left _

theorem nodup_of_accounted {losses : List Nat} (accounted : s.Accounted losses) : s.numbers.Nodup :=
  (accounted.nodup_iff.mpr List.nodup_range).of_append_left

/-- As many answers as packets: every packet was answered once, and none is lost or on its way. -/
theorem answered_perm {losses : List Nat} (accounted : s.Accounted losses) (enough : s.sent.length ≤ s.answers.length) :
    s.answered.Perm (List.range s.sent.length) ∧ s.up = [] ∧ s.down = [] ∧ losses = [] := by
  have count := accounted.length_eq
  have size : s.answered.length = s.answers.length := List.length_map _
  simp only [State.numbers, List.length_append, List.length_range] at count
  have up : s.up = [] := List.length_eq_zero_iff.mp (by omega)
  have down : s.down = [] := List.length_eq_zero_iff.mp (by omega)
  have none : losses = [] := List.length_eq_zero_iff.mp (by omega)
  refine ⟨?_, up, down, none⟩
  have all : (s.numbers ++ losses) = s.answered := by
    rw [State.numbers, up, down, none, List.append_nil, List.append_nil, List.append_nil]
  rw [State.Accounted, all] at accounted
  exact accounted

/-! ### In order -/

/-- The answers, the numbers on their way back and those on their way out are all numbers in their order, but for
those lost where nothing has come after them yet. -/
def State.Lined (s : State T) (lostUp lostDown : List Nat) : Prop :=
  s.answered ++ lostUp ++ s.up ++ lostDown ++ s.down = List.range s.sent.length

theorem lined_start : (State.start : State T).Lined [] [] := rfl

section Lined

variable {lostUp lostDown : List Nat}

end Lined

end Echo
