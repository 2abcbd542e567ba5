import Mathlib.Algebra.BigOperators.Group.List.Basic
import Mathlib.Algebra.Ring.Nat
import Mdelay.Protocol.Delivery

/-!
# The work left in an exchange

Every number still to be sent and every message on its way has a price, the steps it can still bring
about. A step spends what it costs, so the price of the start bounds a run that duplicates nothing.
-/

namespace TwoStep

variable {T : Type*}

/-- What a sending costs: the step itself and, for each of the two messages that come back to the
sender about it, their arrival and their reading. -/
def sendCost : Nat := 5

/-- A reception; that of the responder may begin an answer, which has to end as well. -/
def receiveCost : Side → Nat
  | .initiator => 1
  | .responder => 2

def answerPrice : Nat := 2 * (sendCost + receiveCost .initiator)

def Message.price (m : Message T) : Nat :=
  receiveCost m.dest + if m.dest = .responder ∧ m.stamp.isSome then answerPrice else 0

/-- The most a message can cost. -/
def dearest : Nat := receiveCost .responder + answerPrice

def price (p : Side) (followUp : Bool) : Nat :=
  sendCost + receiveCost p.other + if p = .initiator ∧ followUp then answerPrice else 0

def Action.cost : Action T → Nat
  | .event _ _ | .followUp _ _ => sendCost
  | .deliver p _ _ => receiveCost p
  | .drop _ | .dup _ => 0

namespace Exchange

variable {bound : Side → Nat} {n : Nat} {s s' : Exchange T} {a : Action T}

def work (s : Exchange T) (p : Side) : Nat :=
  match s.stage p with
  | none => (s.todo p).length * (price p false + price p true)
  | some _ => (s.todo p).tail.length * (price p false + price p true) + price p true

def workload (s : Exchange T) : Nat :=
  s.work .initiator + s.work .responder + (s.net.map Message.price).sum

theorem workload_start (n : Nat) : (start n : Exchange T).workload = 26 * n := by
  change (List.range n).length * 26 + 0 + 0 = 26 * n
  rw [List.length_range]
  omega

theorem price_sent (p : Side) (k : Nat) (stamp : Option T) :
    price p stamp.isSome = sendCost + Message.price ⟨p.other, k, stamp⟩ := by
  cases p <;> cases stamp <;> rfl

theorem workload_send {p : Side} {k : Nat} {stamp : Option T} (net : s'.net = s.net ++ [⟨p.other, k, stamp⟩])
    (own : s'.work p + price p stamp.isSome = s.work p) (other : s'.work p.other = s.work p.other) :
    s'.workload + sendCost = s.workload := by
  rw [price_sent p k stamp] at own
  rw [workload, workload, net, List.map_append, List.sum_append, List.map_singleton, List.sum_singleton]
  cases p <;> simp only [Side.other] at other own ⊢ <;> omega

theorem workload_receive (orderly : Orderly n bound s) {i : Nat} {m : Message T} (found : s.net[i]? = some m)
    (accepts : s.accepts bound m.dest) (t : T) : (s.receive i m t).workload + receiveCost m.dest = s.workload := by
  have prices : m.price + ((s.net.eraseIdx i).map Message.price).sum = (s.net.map Message.price).sum := by
    obtain ⟨inside, rfl⟩ := List.getElem?_eq_some_iff.mp found
    exact ((List.getElem_cons_eraseIdx_perm inside).map Message.price).sum_eq
  have initiator : (s.receive i m t).work .initiator = s.work .initiator := by
    have todo : (s.receive i m t).todo .initiator = s.todo .initiator := by
      rw [receive_todo]
      exact if_neg fun ⟨side, _⟩ => by cases side
    rw [work, work, todo]
    rfl
  have responder : (s.receive i m t).work .responder =
      s.work .responder + if m.dest = .responder ∧ m.stamp.isSome then answerPrice else 0 := by
    have todo := receive_todo s i m t .responder
    by_cases answered : m.dest = .responder ∧ m.stamp.isSome = true
    · -- The responder was idle, and its one task is the number to answer.
      obtain ⟨idle, stage⟩ := idle_of_accepts orderly accepts answered.1
      have same : (s.receive i m t).stage .responder = none := stage
      rw [if_pos ⟨rfl, answered⟩] at todo
      rw [work, work, todo, same, stage, idle, if_pos answered]
      rfl
    · rw [if_neg fun both => answered both.2] at todo
      rw [work, work, todo, if_neg answered]
      rfl
  have net : (s.receive i m t).net = s.net.eraseIdx i := rfl
  rw [workload, workload, initiator, responder, net, ← prices, Message.price]
  omega

theorem workload_step (orderly : Orderly n bound s) (lossless : Lossless s a) (stepped : Stepped bound s a s') :
    s'.workload + a.cost = s.workload := by
  cases stepped with
  | @event p t k rest todo stage =>
    have staged : (s.sendEvent p k t).stage p = some t := Function.update_self ..
    have same : (s.sendEvent p k t).todo p = k :: rest := todo
    refine workload_send rfl ?_ (by cases p <;> rfl)
    simp only [work, staged, same, stage, todo, List.length_cons, List.tail_cons, Nat.succ_mul, Option.isSome_none]
    omega
  | @followUp p t k rest u todo stage =>
    have done : (s.sendFollowUp p k rest u t).stage p = none := Function.update_self ..
    have tail : (s.sendFollowUp p k rest u t).todo p = rest := Function.update_self ..
    refine workload_send rfl ?_ (by cases p <;> rfl)
    simp only [work, done, tail, stage, todo, List.tail_cons, Option.isSome_some]
  | deliver found accepts => exact workload_receive orderly found accepts _
  | drop inside => exact lossless.elim
  | dup found => exact lossless.elim

/-! ### Losses and copies -/

theorem price_pos (m : Message T) : 1 ≤ m.price := by
  have some : 1 ≤ receiveCost m.dest := by cases m.dest <;> decide
  rw [Message.price]
  omega

theorem price_le_dearest (m : Message T) : m.price ≤ dearest := by
  have few : receiveCost m.dest ≤ receiveCost .responder := by cases m.dest <;> decide
  rw [Message.price, dearest]
  split <;> omega

theorem workload_drop (s : Exchange T) {i : Nat} {m : Message T} (found : s.net[i]? = some m) :
    ({ s with net := s.net.eraseIdx i } : Exchange T).workload + m.price = s.workload := by
  have prices : m.price + ((s.net.eraseIdx i).map Message.price).sum = (s.net.map Message.price).sum := by
    obtain ⟨inside, rfl⟩ := List.getElem?_eq_some_iff.mp found
    exact ((List.getElem_cons_eraseIdx_perm inside).map Message.price).sum_eq
  change s.work .initiator + s.work .responder + ((s.net.eraseIdx i).map Message.price).sum + m.price = s.workload
  rw [workload]
  omega

theorem workload_dup (s : Exchange T) (m : Message T) :
    ({ s with net := s.net ++ [m] } : Exchange T).workload = s.workload + m.price := by
  change s.work .initiator + s.work .responder + ((s.net ++ [m]).map Message.price).sum = s.workload + m.price
  rw [List.map_append, List.sum_append, List.map_singleton, List.sum_singleton, workload]
  omega

end Exchange

end TwoStep
