import Mathlib.Data.Finset.Card
import Mathlib.Data.Finset.Range
import Mathlib.Data.List.Infix
import Mathlib.Data.List.Induction
import Mathlib.Logic.Function.Basic

/-!
# Recording two-step measurements

A one-way delay is measured in two steps: an event, whose reception is timed, and a follow-up that
carries the time the event was sent. A recorder keeps both halves by sequence number and counts
follow-ups.
-/

namespace TwoStep

variable {T : Type*}

inductive Half (T : Type*) where
  | event (seq : Nat) (t : T)
  | followUp (seq : Nat) (t : T)

def Half.seq : Half T → Nat
  | .event k _ | .followUp k _ => k

def Half.key : Half T → Bool × Nat
  | .event k _ => (false, k)
  | .followUp k _ => (true, k)

def Half.map {U : Type*} (f : T → U) : Half T → Half U
  | .event k t => .event k (f t)
  | .followUp k t => .followUp k (f t)

structure Recorder (T : Type*) where
  sent : Nat → Option T
  recv : Nat → Option T
  count : Nat

def Recorder.empty : Recorder T := ⟨fun _ => none, fun _ => none, 0⟩

def Recorder.apply (r : Recorder T) : Half T → Recorder T
  | .event k t => { r with recv := Function.update r.recv k (some t) }
  | .followUp k t => { r with sent := Function.update r.sent k (some t), count := r.count + 1 }

@[simp] theorem apply_event_sent (r : Recorder T) (k : Nat) (t : T) : (r.apply (.event k t)).sent = r.sent := rfl

@[simp] theorem apply_event_recv (r : Recorder T) (k : Nat) (t : T) :
    (r.apply (.event k t)).recv = Function.update r.recv k (some t) := rfl

@[simp] theorem apply_event_count (r : Recorder T) (k : Nat) (t : T) :
    (r.apply (.event k t)).count = r.count := rfl

@[simp] theorem apply_followUp_sent (r : Recorder T) (k : Nat) (t : T) :
    (r.apply (.followUp k t)).sent = Function.update r.sent k (some t) := rfl

@[simp] theorem apply_followUp_recv (r : Recorder T) (k : Nat) (t : T) :
    (r.apply (.followUp k t)).recv = r.recv := rfl

@[simp] theorem apply_followUp_count (r : Recorder T) (k : Nat) (t : T) :
    (r.apply (.followUp k t)).count = r.count + 1 := rfl

def record (hs : List (Half T)) : Recorder T := hs.foldl Recorder.apply .empty

def Recorder.complete (r : Recorder T) (k : Nat) : Bool := (r.sent k).isSome && (r.recv k).isSome

def HasEvent (hs : List (Half T)) (k : Nat) : Prop := ∃ t, Half.event k t ∈ hs

def HasFollowUp (hs : List (Half T)) (k : Nat) : Prop := ∃ t, Half.followUp k t ∈ hs

theorem record_snoc (hs : List (Half T)) (h : Half T) : record (hs ++ [h]) = (record hs).apply h := by
  rw [record, List.foldl_append]
  rfl

theorem recv_isSome (hs : List (Half T)) (k : Nat) :
    ((record hs).recv k).isSome = true ↔ HasEvent hs k := by
  induction hs using List.reverseRecOn with
  | nil => simp [record, Recorder.empty, HasEvent]
  | append_singleton hs h ih =>
    rw [record_snoc]
    cases h with
    | event j t =>
      by_cases same : k = j
      · subst same
        simp [HasEvent]
      · simp only [apply_event_recv, Function.update_of_ne same, ih, HasEvent, List.mem_append,
          List.mem_singleton, Half.event.injEq, same, false_and, or_false]
    | followUp j t => simp [ih, HasEvent]

theorem sent_isSome (hs : List (Half T)) (k : Nat) :
    ((record hs).sent k).isSome = true ↔ HasFollowUp hs k := by
  induction hs using List.reverseRecOn with
  | nil => simp [record, Recorder.empty, HasFollowUp]
  | append_singleton hs h ih =>
    rw [record_snoc]
    cases h with
    | event j t => simp [ih, HasFollowUp]
    | followUp j t =>
      by_cases same : k = j
      · subst same
        simp [HasFollowUp]
      · simp only [apply_followUp_sent, Function.update_of_ne same, ih, HasFollowUp, List.mem_append,
          List.mem_singleton, Half.followUp.injEq, same, false_and, or_false]

theorem complete_iff (hs : List (Half T)) (k : Nat) :
    (record hs).complete k = true ↔ HasFollowUp hs k ∧ HasEvent hs k := by
  rw [Recorder.complete, Bool.and_eq_true, sent_isSome, recv_isSome]

/-! ### The counter and the complete measurements -/

def Recorder.completed (r : Recorder T) (bound : Nat) : Finset Nat :=
  (Finset.range bound).filter fun k => r.complete k = true

/-- Every follow-up is the first of its number and comes after its event. -/
def Paired (hs : List (Half T)) : Prop :=
  ∀ pre k t post, hs = pre ++ Half.followUp k t :: post → HasEvent pre k ∧ ¬ HasFollowUp pre k

theorem paired_snoc (hs : List (Half T)) (h : Half T) :
    Paired (hs ++ [h]) ↔
      Paired hs ∧ ∀ k t, h = .followUp k t → HasEvent hs k ∧ ¬ HasFollowUp hs k := by
  constructor
  · intro paired
    constructor
    · intro pre k t post split
      exact paired pre k t (post ++ [h]) (by simp [split])
    · rintro k t rfl
      exact paired hs k t [] rfl
  · rintro ⟨paired, last⟩ pre k t post split
    rcases List.eq_nil_or_concat post with rfl | ⟨init, h', rfl⟩
    · obtain ⟨rfl, same⟩ := List.append_inj' split rfl
      exact last k t (List.singleton_inj.mp same)
    · rw [List.concat_eq_append, ← List.cons_append, ← List.append_assoc] at split
      exact paired pre k t init (List.append_inj_left' split rfl)

def Recorder.other (r : Recorder T) : Half T → Bool
  | .event k _ => (r.sent k).isSome
  | .followUp k _ => (r.recv k).isSome

theorem complete_apply (r : Recorder T) (h : Half T) (k : Nat) :
    (r.apply h).complete k = if k = h.seq then r.other h else r.complete k := by
  cases h with
  | event j t => by_cases same : k = j <;> simp [Recorder.complete, Recorder.other, Half.seq, same]
  | followUp j t => by_cases same : k = j <;> simp [Recorder.complete, Recorder.other, Half.seq, same]

theorem other_of_complete {r : Recorder T} {h : Half T} (complete : r.complete h.seq = true) :
    r.other h = true := by
  rw [Recorder.complete, Bool.and_eq_true] at complete
  cases h with
  | event k t => exact complete.1
  | followUp k t => exact complete.2

theorem mem_completed {r : Recorder T} {bound k : Nat} :
    k ∈ r.completed bound ↔ k < bound ∧ r.complete k = true := by
  rw [Recorder.completed, Finset.mem_filter, Finset.mem_range]

theorem completed_apply_same {r : Recorder T} {h : Half T} (same : r.other h = r.complete h.seq) (bound : Nat) :
    (r.apply h).completed bound = r.completed bound := by
  ext k
  rw [mem_completed, mem_completed, complete_apply]
  split
  · rename_i number
    rw [same, number]
  · rfl

theorem card_completed_apply_new {r : Recorder T} {h : Half T} {bound : Nat} (inside : h.seq < bound)
    (other : r.other h = true) (new : r.complete h.seq = false) :
    ((r.apply h).completed bound).card = (r.completed bound).card + 1 := by
  have grown : (r.apply h).completed bound = insert h.seq (r.completed bound) := by
    ext k
    rw [mem_completed, Finset.mem_insert, mem_completed, complete_apply]
    by_cases number : k = h.seq
    · simp [number, other, inside]
    · simp [number]
  rw [grown, Finset.card_insert_of_notMem]
  intro member
  rw [(mem_completed.mp member).2] at new
  cases new

theorem hasEvent_of_paired {hs : List (Half T)} (paired : Paired hs) {k : Nat}
    (followUp : HasFollowUp hs k) : HasEvent hs k := by
  obtain ⟨t, member⟩ := followUp
  obtain ⟨pre, post, rfl⟩ := List.append_of_mem member
  obtain ⟨t', early⟩ := (paired pre k t post rfl).1
  exact ⟨t', List.mem_append_left _ early⟩

/-- One more half keeps the count right exactly when it keeps the history paired. -/
theorem count_step_iff {hs : List (Half T)} {h : Half T} {bound : Nat} (inside : h.seq < bound)
    (paired : Paired hs) (before : (record hs).count = ((record hs).completed bound).card) :
    (record (hs ++ [h])).count = ((record (hs ++ [h])).completed bound).card ↔
      ∀ k t, h = .followUp k t → HasEvent hs k ∧ ¬ HasFollowUp hs k := by
  rw [record_snoc]
  cases h with
  | event k t =>
    have same : (record hs).other (.event k t) = (record hs).complete k := by
      have both : ((record hs).sent k).isSome = true → ((record hs).recv k).isSome = true := fun sent =>
        (recv_isSome hs k).mpr (hasEvent_of_paired paired ((sent_isSome hs k).mp sent))
      rw [Recorder.other, Recorder.complete]
      cases sent : ((record hs).sent k).isSome
      · rfl
      · rw [both sent]
        rfl
    rw [completed_apply_same same]
    simpa using before
  | followUp k t =>
    have counted : ((record hs).apply (.followUp k t)).count = (record hs).count + 1 := rfl
    have goal : (∀ j u, Half.followUp k t = .followUp j u → HasEvent hs j ∧ ¬ HasFollowUp hs j) ↔
        (record hs).other (.followUp k t) = true ∧ (record hs).complete k = false := by
      rw [← Bool.not_eq_true, complete_iff, Recorder.other, recv_isSome]
      constructor
      · intro right
        obtain ⟨event, first⟩ := right k t rfl
        exact ⟨event, fun both => first both.1⟩
      · rintro ⟨event, first⟩ j u same
        obtain ⟨rfl, -⟩ := Half.followUp.inj same
        exact ⟨event, fun followUp => first ⟨followUp, event⟩⟩
    rw [goal, counted, before]
    constructor
    · intro right
      by_cases same : (record hs).other (.followUp k t) = (record hs).complete k
      · rw [completed_apply_same same] at right
        omega
      · cases complete : (record hs).complete k
        · exact ⟨by simpa [complete] using same, rfl⟩
        · exact absurd ((other_of_complete (h := .followUp k t) complete).trans complete.symm) same
    · rintro ⟨other, new⟩
      exact (card_completed_apply_new inside other new).symm

/-- The counter counts the complete measurements after every prefix exactly when the halves are
paired. -/
theorem count_eq_completed_iff {hs : List (Half T)} {bound : Nat} (inside : ∀ h ∈ hs, h.seq < bound) :
    (∀ pre, pre <+: hs → (record pre).count = ((record pre).completed bound).card) ↔ Paired hs := by
  induction hs using List.reverseRecOn with
  | nil =>
    constructor
    · intro _ pre k t post split
      simp at split
    · intro _ pre short
      rw [List.prefix_nil.mp short]
      simp [record, Recorder.empty, Recorder.completed, Recorder.complete]
  | append_singleton hs h ih =>
    have ih := ih fun h' member => inside h' (List.mem_append_left _ member)
    have last := inside h (by simp)
    simp only [List.prefix_concat_iff, forall_eq_or_imp, paired_snoc]
    rw [ih, and_comm]
    refine and_congr_right fun paired => ?_
    exact count_step_iff last paired (ih.mpr paired hs (List.prefix_refl hs))

/-! ### Histories without repetition -/

theorem hasFollowUp_snoc {hs : List (Half T)} {h : Half T} {k : Nat} :
    HasFollowUp (hs ++ [h]) k ↔ HasFollowUp hs k ∨ h.key = (true, k) := by
  simp only [HasFollowUp, List.mem_append, List.mem_singleton, exists_or]
  refine or_congr_right ?_
  cases h <;> simp [Half.key, eq_comm]

theorem hasFollowUp_iff {hs : List (Half T)} {k : Nat} : HasFollowUp hs k ↔ (true, k) ∈ hs.map Half.key := by
  induction hs using List.reverseRecOn with
  | nil => simp [HasFollowUp]
  | append_singleton hs h ih => simp [hasFollowUp_snoc, ih, eq_comm]

theorem count_eq_card {hs : List (Half T)} {bound : Nat} (inside : ∀ h ∈ hs, h.seq < bound)
    (distinct : (hs.map Half.key).Nodup) :
    (record hs).count = ((Finset.range bound).filter fun k => ((record hs).sent k).isSome = true).card := by
  induction hs using List.reverseRecOn with
  | nil => simp [record, Recorder.empty]
  | append_singleton hs h ih =>
    rw [List.map_append, List.map_singleton, List.nodup_append] at distinct
    have ih := ih (fun h' member => inside h' (List.mem_append_left _ member)) distinct.1
    rw [record_snoc]
    cases h with
    | event k t => exact ih
    | followUp k t =>
      have last : k < bound := inside (.followUp k t) (by simp)
      have fresh : ¬ HasFollowUp hs k := fun old =>
        distinct.2.2 _ (hasFollowUp_iff.mp old) _ (List.mem_singleton_self _) rfl
      have grown : ((Finset.range bound).filter fun j =>
            (((record hs).apply (.followUp k t)).sent j).isSome = true) =
          insert k ((Finset.range bound).filter fun j => ((record hs).sent j).isSome = true) := by
        ext j
        rw [Finset.mem_filter, Finset.mem_insert, Finset.mem_filter, apply_followUp_sent]
        by_cases same : j = k
        · simp [same, last]
        · simp [same]
      rw [grown, Finset.card_insert_of_notMem, ← ih]
      · rfl
      · intro member
        exact fresh ((sent_isSome hs k).mp (Finset.mem_filter.mp member).2)

theorem recv_of_last {pre post : List (Half T)} {k : Nat} {t : T} (last : (false, k) ∉ post.map Half.key) :
    (record (pre ++ .event k t :: post)).recv k = some t := by
  induction post using List.reverseRecOn with
  | nil =>
    rw [record_snoc]
    exact Function.update_self ..
  | append_singleton post h ih =>
    rw [List.map_append, List.mem_append, not_or] at last
    rw [← List.cons_append, ← List.append_assoc, record_snoc]
    cases h with
    | event j u =>
      have different : k ≠ j := by
        rintro rfl
        exact last.2 (List.mem_singleton_self _)
      rw [apply_event_recv, Function.update_of_ne different]
      exact ih last.1
    | followUp j u => exact ih last.1

theorem sent_of_last {pre post : List (Half T)} {k : Nat} {t : T} (last : (true, k) ∉ post.map Half.key) :
    (record (pre ++ .followUp k t :: post)).sent k = some t := by
  induction post using List.reverseRecOn with
  | nil =>
    rw [record_snoc]
    exact Function.update_self ..
  | append_singleton post h ih =>
    rw [List.map_append, List.mem_append, not_or] at last
    rw [← List.cons_append, ← List.append_assoc, record_snoc]
    cases h with
    | event j u => exact ih last.1
    | followUp j u =>
      have different : k ≠ j := by
        rintro rfl
        exact last.2 (List.mem_singleton_self _)
      rw [apply_followUp_sent, Function.update_of_ne different]
      exact ih last.1

theorem mem_of_sent {hs : List (Half T)} {k : Nat} {t : T} (recorded : (record hs).sent k = some t) :
    Half.followUp k t ∈ hs := by
  induction hs using List.reverseRecOn with
  | nil => cases recorded
  | append_singleton hs h ih =>
    rw [record_snoc] at recorded
    rw [List.mem_append, List.mem_singleton]
    cases h with
    | event j u => exact Or.inl (ih recorded)
    | followUp j u =>
      by_cases same : k = j
      · subst same
        rw [apply_followUp_sent, Function.update_self] at recorded
        exact Or.inr (congrArg (Half.followUp k) (Option.some.inj recorded).symm)
      · rw [apply_followUp_sent, Function.update_of_ne same] at recorded
        exact Or.inl (ih recorded)

theorem last_of_nodup {hs : List (Half T)} (distinct : (hs.map Half.key).Nodup) {h : Half T} (member : h ∈ hs) :
    ∃ pre post, hs = pre ++ h :: post ∧ h.key ∉ post.map Half.key := by
  obtain ⟨pre, post, rfl⟩ := List.append_of_mem member
  rw [List.map_append, List.map_cons, List.nodup_append] at distinct
  exact ⟨pre, post, rfl, (List.nodup_cons.mp distinct.2.1).1⟩

theorem recv_eq_of_mem {hs : List (Half T)} (distinct : (hs.map Half.key).Nodup) {k : Nat} {t : T}
    (member : Half.event k t ∈ hs) : (record hs).recv k = some t := by
  obtain ⟨pre, post, rfl, last⟩ := last_of_nodup distinct member
  exact recv_of_last last

theorem sent_eq_of_mem {hs : List (Half T)} (distinct : (hs.map Half.key).Nodup) {k : Nat} {t : T}
    (member : Half.followUp k t ∈ hs) : (record hs).sent k = some t := by
  obtain ⟨pre, post, rfl, last⟩ := last_of_nodup distinct member
  exact sent_of_last last

theorem filter_lt_range {m bound : Nat} (le : m ≤ bound) :
    (List.range bound).filter (fun k => decide (k < m)) = List.range m := by
  obtain ⟨rest, rfl⟩ := Nat.exists_eq_add_of_le le
  rw [List.range_add, List.filter_append, List.filter_eq_self.mpr, List.filter_eq_nil_iff.mpr,
    List.append_nil]
  · intro k member
    obtain ⟨j, -, rfl⟩ := List.mem_map.mp member
    simp
  · intro k member
    simpa using member

/-- The follow-ups that are in are those of an initial segment of the numbers, each with its
event. -/
def Gapless (hs : List (Half T)) : Prop :=
  ∃ m, (∀ k, HasFollowUp hs k ↔ k < m) ∧ ∀ k, k < m → HasEvent hs k

/-- The first `count` numbers are the complete measurements exactly when the follow-ups have no
gap and every one has its event. -/
theorem range_count_iff {hs : List (Half T)} {bound : Nat} (inside : ∀ h ∈ hs, h.seq < bound)
    (distinct : (hs.map Half.key).Nodup) :
    List.range (record hs).count = (List.range bound).filter (record hs).complete ↔ Gapless hs := by
  have counted := count_eq_card inside distinct
  have below : ∀ {k}, HasFollowUp hs k → k < bound := fun ⟨t, member⟩ => inside (.followUp _ t) member
  constructor
  · intro same
    have completeBelow : ∀ k, k < (record hs).count → (record hs).complete k = true := fun k small => by
      have member : k ∈ (List.range bound).filter (record hs).complete := by
        rw [← same]
        exact List.mem_range.mpr small
      exact (List.mem_filter.mp member).2
    refine ⟨(record hs).count, fun k => ⟨fun followUp => ?_, fun small => ?_⟩, fun k small => ?_⟩
    · -- The `count` numbers below `count` are already all the follow-ups there are.
      have subset : Finset.range (record hs).count ⊆
          (Finset.range bound).filter fun k => ((record hs).sent k).isSome = true := by
        intro j member
        have followUp := ((complete_iff hs j).mp (completeBelow j (Finset.mem_range.mp member))).1
        exact Finset.mem_filter.mpr
          ⟨Finset.mem_range.mpr (below followUp), (sent_isSome hs j).mpr followUp⟩
      have whole := Finset.eq_of_subset_of_card_le subset (by rw [← counted, Finset.card_range])
      rw [← Finset.mem_range, whole, Finset.mem_filter, Finset.mem_range]
      exact ⟨below followUp, (sent_isSome hs k).mpr followUp⟩
    · exact ((complete_iff hs k).mp (completeBelow k small)).1
    · exact ((complete_iff hs k).mp (completeBelow k small)).2
  · rintro ⟨m, followUps, events⟩
    have le : m ≤ bound := by
      by_contra large
      exact Nat.lt_irrefl bound (below ((followUps bound).mpr (by omega)))
    have exactly : ((Finset.range bound).filter fun k => ((record hs).sent k).isSome = true) =
        Finset.range m := by
      ext k
      rw [Finset.mem_filter, Finset.mem_range, Finset.mem_range, sent_isSome, followUps]
      omega
    rw [counted, exactly, Finset.card_range, ← filter_lt_range le]
    apply List.filter_congr
    intro k _
    rw [Bool.eq_iff_iff, decide_eq_true_eq, complete_iff, followUps]
    exact ⟨fun small => ⟨small, events k small⟩, fun both => both.1⟩

end TwoStep
