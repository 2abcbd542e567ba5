import Mdelay.Library.Transition
import Mdelay.Protocol.Recorder

/-!
# The two-step exchange

An initiator measures the path to a responder and back. It sends a numbered event and then a
follow-up with the time the event was sent; the responder answers every follow-up it receives with
an event and a follow-up of its own. Either side records what it receives until it has counted
enough follow-ups. Times are opaque.
-/

namespace TwoStep
open Transition

variable {T : Type*}

inductive Side where
  | initiator | responder
  deriving DecidableEq

def Side.other : Side → Side
  | .initiator => .responder
  | .responder => .initiator

@[simp] theorem other_other (p : Side) : p.other.other = p := by cases p <;> rfl

/-- A message on its way; `stamp` is the time a follow-up carries. -/
structure Message (T : Type*) where
  dest : Side
  seq : Nat
  stamp : Option T

/-- A message as it was seen leaving or reaching a side, with the time there. -/
structure Sighting (T : Type*) where
  side : Side
  sent : Bool
  followUp : Bool
  seq : Nat
  time : T

def Message.half (m : Message T) (t : T) : Half T :=
  match m.stamp with
  | none => .event m.seq t
  | some u => .followUp m.seq u

/-- `todo` are the numbers a side has still to send, `stage` is the time of the event of the first of
them once that is sent. -/
structure Exchange (T : Type*) where
  todo : Side → List Nat
  stage : Side → Option T
  recorder : Side → Recorder T
  net : List (Message T)
  trace : List (Sighting T)

inductive Action (T : Type*) where
  | event (p : Side) (t : T)
  | followUp (p : Side) (t : T)
  | deliver (p : Side) (i : Nat) (t : T)
  | drop (i : Nat)
  | dup (i : Nat)

namespace Exchange

def start (n : Nat) : Exchange T where
  todo
    | .initiator => List.range n
    | .responder => []
  stage _ := none
  recorder _ := .empty
  net := []
  trace := []

/-- A side takes messages until it has counted enough; the responder not while it answers. -/
def accepts (bound : Side → Nat) (s : Exchange T) (p : Side) : Prop :=
  (s.recorder p).count < bound p ∧ (p = .responder → s.todo p = [])

instance (bound : Side → Nat) (s : Exchange T) (p : Side) : Decidable (s.accepts bound p) :=
  inferInstanceAs (Decidable (_ ∧ _))

def sendEvent (s : Exchange T) (p : Side) (k : Nat) (t : T) : Exchange T :=
  { s with
    stage := Function.update s.stage p (some t)
    net := s.net ++ [⟨p.other, k, none⟩]
    trace := s.trace ++ [⟨p, true, false, k, t⟩] }

def sendFollowUp (s : Exchange T) (p : Side) (k : Nat) (rest : List Nat) (u t : T) : Exchange T :=
  { s with
    todo := Function.update s.todo p rest
    stage := Function.update s.stage p none
    net := s.net ++ [⟨p.other, k, some u⟩]
    trace := s.trace ++ [⟨p, true, true, k, t⟩] }

def receive (s : Exchange T) (i : Nat) (m : Message T) (t : T) : Exchange T :=
  { s with
    todo := if m.dest = .responder ∧ m.stamp.isSome then Function.update s.todo m.dest [m.seq] else s.todo
    recorder := Function.update s.recorder m.dest ((s.recorder m.dest).apply (m.half t))
    net := s.net.eraseIdx i
    trace := s.trace ++ [⟨m.dest, false, m.stamp.isSome, m.seq, t⟩] }

def step (bound : Side → Nat) (s : Exchange T) : Action T → Option (Exchange T)
  | .event p t =>
    match s.todo p, s.stage p with
    | k :: _, none => some (s.sendEvent p k t)
    | _, _ => none
  | .followUp p t =>
    match s.todo p, s.stage p with
    | k :: rest, some u => some (s.sendFollowUp p k rest u t)
    | _, _ => none
  | .deliver p i t =>
    match s.net[i]? with
    | some m => if m.dest = p ∧ s.accepts bound p then some (s.receive i m t) else none
    | none => none
  | .drop i => if i < s.net.length then some { s with net := s.net.eraseIdx i } else none
  | .dup i => (s.net[i]?).map fun m => { s with net := s.net ++ [m] }

def Lossless (_ : Exchange T) : Action T → Prop
  | .drop _ | .dup _ => False
  | _ => True

def Ordered (s : Exchange T) (a : Action T) : Prop :=
  Lossless s a ∧ ∀ p i t m, a = .deliver p i t → s.net[i]? = some m → m.stamp.isSome = true →
    ∀ m' ∈ s.net, m'.dest = p → m'.stamp = none → m'.seq ≠ m.seq

inductive Stepped (bound : Side → Nat) (s : Exchange T) : Action T → Exchange T → Prop
  | event {p t k rest} (todo : s.todo p = k :: rest) (stage : s.stage p = none) :
      Stepped bound s (.event p t) (s.sendEvent p k t)
  | followUp {p t k rest u} (todo : s.todo p = k :: rest) (stage : s.stage p = some u) :
      Stepped bound s (.followUp p t) (s.sendFollowUp p k rest u t)
  | deliver {i t m} (found : s.net[i]? = some m) (accepts : s.accepts bound m.dest) :
      Stepped bound s (.deliver m.dest i t) (s.receive i m t)
  | drop {i} (inside : i < s.net.length) : Stepped bound s (.drop i) { s with net := s.net.eraseIdx i }
  | dup {i m} (found : s.net[i]? = some m) : Stepped bound s (.dup i) { s with net := s.net ++ [m] }

theorem stepped_iff {bound : Side → Nat} {s s' : Exchange T} {a : Action T} :
    step bound s a = some s' ↔ Stepped bound s a s' := by
  constructor
  · intro taken
    cases a with
    | event p t =>
      simp only [step] at taken
      split at taken
      · rename_i k rest todo stage
        obtain rfl := Option.some.inj taken
        exact .event todo stage
      · cases taken
    | followUp p t =>
      simp only [step] at taken
      split at taken
      · rename_i k rest u todo stage
        obtain rfl := Option.some.inj taken
        exact .followUp todo stage
      · cases taken
    | deliver p i t =>
      simp only [step] at taken
      split at taken
      · rename_i m found
        split at taken
        · rename_i guard
          obtain ⟨rfl, accepts⟩ := guard
          obtain rfl := Option.some.inj taken
          exact .deliver found accepts
        · cases taken
      · cases taken
    | drop i =>
      simp only [step] at taken
      split at taken
      · obtain rfl := Option.some.inj taken
        exact .drop (by assumption)
      · cases taken
    | dup i =>
      simp only [step, Option.map_eq_some_iff] at taken
      obtain ⟨m, found, rfl⟩ := taken
      exact .dup found
  · rintro (⟨todo, stage⟩ | ⟨todo, stage⟩ | ⟨found, accepts⟩ | inside | found)
    · simp only [step, todo, stage]
    · simp only [step, todo, stage]
    · simp [step, found, accepts]
    · simp only [step, if_pos inside]
    · simp only [step, found, Option.map_some]

end Exchange

/-! ### What has been seen and what is on its way -/

/-- The numbers of the events or follow-ups a side has sent or received, oldest first. -/
def seqs (trace : List (Sighting T)) (p : Side) (sent followUp : Bool) : List Nat :=
  (trace.filter fun o => o.side = p ∧ o.sent = sent ∧ o.followUp = followUp).map Sighting.seq

def receptions (trace : List (Sighting T)) (p : Side) : Nat :=
  trace.countP fun o => o.side = p ∧ o.sent = false

def onWay (net : List (Message T)) (p : Side) (followUp : Bool) : List Nat :=
  (net.filter fun m => m.dest = p ∧ m.stamp.isSome = followUp).map Message.seq

theorem forall_mem_snoc {α : Type*} {xs : List α} {x : α} {P : α → Prop} :
    (∀ y ∈ xs ++ [x], P y) ↔ (∀ y ∈ xs, P y) ∧ P x := by
  rw [List.forall_mem_append, List.forall_mem_singleton]

theorem seqs_snoc (trace : List (Sighting T)) (o : Sighting T) (p : Side) (sent followUp : Bool) :
    seqs (trace ++ [o]) p sent followUp =
      seqs trace p sent followUp ++ if o.side = p ∧ o.sent = sent ∧ o.followUp = followUp then [o.seq] else [] := by
  by_cases same : o.side = p ∧ o.sent = sent ∧ o.followUp = followUp <;> simp [seqs, List.filter_append, same]

theorem receptions_snoc (trace : List (Sighting T)) (o : Sighting T) (p : Side) :
    receptions (trace ++ [o]) p = receptions trace p + if o.side = p ∧ o.sent = false then 1 else 0 := by
  by_cases same : o.side = p ∧ o.sent = false <;> simp [receptions, same]

theorem receptions_eq (trace : List (Sighting T)) (p : Side) :
    receptions trace p = (seqs trace p false false).length + (seqs trace p false true).length := by
  induction trace using List.reverseRecOn with
  | nil => rfl
  | append_singleton trace o ih =>
    rw [receptions_snoc, seqs_snoc, seqs_snoc, List.length_append, List.length_append, ih]
    obtain ⟨side, sent, followUp, seq, time⟩ := o
    by_cases same : side = p <;> cases sent <;> cases followUp <;> simp [same] <;> omega

theorem mem_seqs_snoc {trace : List (Sighting T)} {o : Sighting T} {p : Side} {sent followUp : Bool} {k : Nat} :
    k ∈ seqs (trace ++ [o]) p sent followUp ↔
      k ∈ seqs trace p sent followUp ∨ (o.side = p ∧ o.sent = sent ∧ o.followUp = followUp ∧ o.seq = k) := by
  rw [seqs_snoc, List.mem_append]
  refine or_congr_right ?_
  split
  · rename_i same
    simp [same, eq_comm]
  · rename_i other
    simp only [List.not_mem_nil, false_iff]
    exact fun ⟨side, sent, followUp, _⟩ => other ⟨side, sent, followUp⟩

theorem mem_seqs {trace : List (Sighting T)} {p : Side} {sent followUp : Bool} {k : Nat} :
    k ∈ seqs trace p sent followUp ↔ ∃ t, ⟨p, sent, followUp, k, t⟩ ∈ trace := by
  simp only [seqs, List.mem_map, List.mem_filter, decide_eq_true_eq]
  constructor
  · rintro ⟨⟨side, sent', followUp', seq, t⟩, ⟨member, rfl, rfl, rfl⟩, rfl⟩
    exact ⟨t, member⟩
  · rintro ⟨t, member⟩
    exact ⟨_, ⟨member, rfl, rfl, rfl⟩, rfl⟩

theorem onWay_snoc (net : List (Message T)) (m : Message T) (p : Side) (followUp : Bool) :
    onWay (net ++ [m]) p followUp =
      onWay net p followUp ++ if m.dest = p ∧ m.stamp.isSome = followUp then [m.seq] else [] := by
  by_cases same : m.dest = p ∧ m.stamp.isSome = followUp <;> simp [onWay, List.filter_append, same]

theorem mem_onWay {net : List (Message T)} {p : Side} {followUp : Bool} {k : Nat} :
    k ∈ onWay net p followUp ↔ ∃ m ∈ net, m.dest = p ∧ m.stamp.isSome = followUp ∧ m.seq = k := by
  simp [onWay, and_assoc]

theorem onWay_eraseIdx {net : List (Message T)} {i : Nat} {m : Message T} (found : net[i]? = some m) (p : Side)
    (followUp : Bool) :
    (onWay net p followUp).Perm
      ((if m.dest = p ∧ m.stamp.isSome = followUp then [m.seq] else []) ++ onWay (net.eraseIdx i) p followUp) := by
  obtain ⟨inside, rfl⟩ := List.getElem?_eq_some_iff.mp found
  have taken := ((List.getElem_cons_eraseIdx_perm inside).filter
    fun m => m.dest = p ∧ m.stamp.isSome = followUp).map Message.seq
  refine taken.symm.trans (.of_eq ?_)
  by_cases same : net[i].dest = p ∧ net[i].stamp.isSome = followUp <;> simp [onWay, same]

namespace Exchange

/-! ### Invariants of every run -/

/-- What a side has to send: the responder, the numbers of the follow-ups it has received. -/
def tasks (n : Nat) (trace : List (Sighting T)) : Side → List Nat
  | .initiator => List.range n
  | .responder => seqs trace .responder false true

/-- Every side sends the events and the follow-ups of its tasks in their order. -/
structure Orderly (n : Nat) (bound : Side → Nat) (s : Exchange T) : Prop where
  followUps : ∀ p, seqs s.trace p true true ++ s.todo p = tasks n s.trace p
  events : ∀ p, seqs s.trace p true false ++ (if (s.stage p).isSome then (s.todo p).tail else s.todo p) =
    tasks n s.trace p
  busy : ∀ p, (s.stage p).isSome = true → s.todo p ≠ []
  count : ∀ p, (s.recorder p).count = (seqs s.trace p false true).length
  enough : ∀ p, (s.recorder p).count ≤ bound p

theorem orderly_start (n : Nat) (bound : Side → Nat) : Orderly n bound (start n : Exchange T) where
  followUps p := by cases p <;> rfl
  events p := by cases p <;> rfl
  busy p staged := by cases staged
  count _ := rfl
  enough _ := Nat.zero_le _

theorem apply_half_count (r : Recorder T) (m : Message T) (t : T) :
    (r.apply (m.half t)).count = r.count + if m.stamp.isSome then 1 else 0 := by
  cases stamp : m.stamp <;> simp [Message.half, stamp]

theorem receive_todo (s : Exchange T) (i : Nat) (m : Message T) (t : T) (p : Side) :
    (s.receive i m t).todo p =
      if p = .responder ∧ m.dest = .responder ∧ m.stamp.isSome then [m.seq] else s.todo p := by
  rw [receive]
  by_cases answered : m.dest = .responder ∧ m.stamp.isSome
  · cases p <;> simp [answered]
  · cases p <;> simp [answered]

theorem receive_count (s : Exchange T) (i : Nat) (m : Message T) (t : T) (p : Side) :
    ((s.receive i m t).recorder p).count =
      (s.recorder p).count + if m.dest = p ∧ m.stamp.isSome then 1 else 0 := by
  by_cases same : p = m.dest
  · subst same
    simp [receive, apply_half_count]
  · have other : ¬ m.dest = p := fun equal => same equal.symm
    simp [receive, same, other]

variable {n : Nat} {bound : Side → Nat} {s s' : Exchange T} {a : Action T}

/-- The responder is idle when it takes a message, so a follow-up becomes its one task. -/
theorem idle_of_accepts (inv : Orderly n bound s) {p : Side} (accepts : s.accepts bound p)
    (answering : p = .responder) :
    s.todo .responder = [] ∧ s.stage .responder = none := by
  subst answering
  have empty := accepts.2 rfl
  refine ⟨empty, ?_⟩
  cases stage : s.stage .responder with
  | none => rfl
  | some u => exact absurd empty (inv.busy .responder (by rw [stage]; rfl))

theorem orderly_sendEvent (inv : Orderly n bound s) {p : Side} {t : T} {k : Nat} {rest : List Nat}
    (todo : s.todo p = k :: rest) (stage : s.stage p = none) : Orderly n bound (s.sendEvent p k t) := by
  refine ⟨fun q => ?_, fun q => ?_, fun q staged => ?_, fun q => ?_, inv.enough⟩
  · have old := inv.followUps q
    cases q <;> simpa [sendEvent, seqs_snoc, tasks] using old
  · have old := inv.events q
    by_cases same : q = p
    · subst same
      rw [stage, todo] at old
      cases q <;> simpa [sendEvent, seqs_snoc, tasks, todo] using old
    · have other : ¬ p = q := fun equal => same equal.symm
      cases q <;> simpa [sendEvent, seqs_snoc, tasks, Function.update_of_ne same, other] using old
  · by_cases same : q = p
    · subst same
      simp [sendEvent, todo]
    · exact inv.busy q (by simpa [sendEvent, same] using staged)
  · simpa [sendEvent, seqs_snoc] using inv.count q

theorem orderly_sendFollowUp (inv : Orderly n bound s) {p : Side} {t u : T} {k : Nat} {rest : List Nat}
    (todo : s.todo p = k :: rest) (stage : s.stage p = some u) :
    Orderly n bound (s.sendFollowUp p k rest u t) := by
  refine ⟨fun q => ?_, fun q => ?_, fun q staged => ?_, fun q => ?_, inv.enough⟩
  · have old := inv.followUps q
    by_cases same : q = p
    · subst same
      rw [todo] at old
      cases q <;> simpa [sendFollowUp, seqs_snoc, tasks] using old
    · have other : ¬ p = q := fun equal => same equal.symm
      cases q <;> simpa [sendFollowUp, seqs_snoc, tasks, Function.update_of_ne same, other] using old
  · have old := inv.events q
    by_cases same : q = p
    · subst same
      rw [stage, todo] at old
      cases q <;> simpa [sendFollowUp, seqs_snoc, tasks] using old
    · cases q <;> simpa [sendFollowUp, seqs_snoc, tasks, Function.update_of_ne same] using old
  · by_cases same : q = p
    · subst same
      simp [sendFollowUp] at staged
    · simpa [sendFollowUp, same] using inv.busy q (by simpa [sendFollowUp, same] using staged)
  · simpa [sendFollowUp, seqs_snoc] using inv.count q

theorem orderly_receive (inv : Orderly n bound s) {i : Nat} {m : Message T} {t : T}
    (accepts : s.accepts bound m.dest) : Orderly n bound (s.receive i m t) := by
  refine ⟨fun q => ?_, fun q => ?_, fun q staged => ?_, fun q => ?_, fun q => ?_⟩
  · have old := inv.followUps q
    rw [receive_todo]
    cases q with
    | initiator => simpa [receive, seqs_snoc, tasks] using old
    | responder =>
      by_cases answered : m.dest = .responder ∧ m.stamp.isSome = true
      · rw [(idle_of_accepts inv accepts answered.1).1] at old
        simpa [receive, seqs_snoc, tasks, answered] using old
      · simpa [receive, seqs_snoc, tasks, answered] using old
  · have old := inv.events q
    rw [receive_todo]
    cases q with
    | initiator => simpa [receive, seqs_snoc, tasks] using old
    | responder =>
      by_cases answered : m.dest = .responder ∧ m.stamp.isSome = true
      · obtain ⟨empty, idle⟩ := idle_of_accepts inv accepts answered.1
        rw [empty, idle] at old
        simpa [receive, seqs_snoc, tasks, answered, idle] using old
      · simpa [receive, seqs_snoc, tasks, answered] using old
  · have old := inv.busy q staged
    rw [receive_todo]
    split
    · exact List.cons_ne_nil _ _
    · exact old
  · have old := inv.count q
    rw [receive_count, old, receive]
    dsimp only
    rw [seqs_snoc, List.length_append]
    by_cases here : m.dest = q ∧ m.stamp.isSome = true <;> simp [here]
  · rw [receive_count]
    by_cases here : m.dest = q ∧ m.stamp.isSome = true
    · have room := accepts.1
      rw [here.1] at room
      rw [if_pos here]
      omega
    · rw [if_neg here]
      exact inv.enough q

theorem orderly_step (inv : Orderly n bound s) (stepped : Stepped bound s a s') : Orderly n bound s' := by
  cases stepped with
  | event todo stage => exact orderly_sendEvent inv todo stage
  | followUp todo stage => exact orderly_sendFollowUp inv todo stage
  | deliver found accepts => exact orderly_receive inv accepts
  | drop inside => exact ⟨inv.followUps, inv.events, inv.busy, inv.count, inv.enough⟩
  | dup found => exact ⟨inv.followUps, inv.events, inv.busy, inv.count, inv.enough⟩

end Exchange

end TwoStep
