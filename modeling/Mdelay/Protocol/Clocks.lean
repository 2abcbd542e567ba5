import Mdelay.Library.Related
import Mdelay.Protocol.Delivery

/-!
# Two exchanges that differ in their clocks

Two runs take the same steps at times related as the clocks of the two runs are. Then their
recorders hold related times.
-/

namespace TwoStep
open Transition

variable {T : Type*} {clocks : Side → T → T → Prop}

/-- A stamp is read from the clock of the side that sent it. -/
structure Message.Alike (clocks : Side → T → T → Prop) (m m' : Message T) : Prop where
  dest : m'.dest = m.dest
  seq : m'.seq = m.seq
  stamp : Option.Rel (clocks m.dest.other) m.stamp m'.stamp

namespace Exchange

variable {bound : Side → Nat} {n : Nat} {s s' t t' : Exchange T} {a a' : Action T}

/-- The same action; the times of events are related, those of follow-ups do not matter. -/
inductive SameAction (clocks : Side → T → T → Prop) (s : Exchange T) : Action T → Action T → Prop
  | event {p t t'} (time : clocks p t t') : SameAction clocks s (.event p t) (.event p t')
  | followUp (p t t') : SameAction clocks s (.followUp p t) (.followUp p t')
  | deliver {p i t t'} (time : ∀ m, s.net[i]? = some m → m.stamp = none → clocks p t t') :
      SameAction clocks s (.deliver p i t) (.deliver p i t')
  | drop (i) : SameAction clocks s (.drop i) (.drop i)
  | dup (i) : SameAction clocks s (.dup i) (.dup i)

structure Alike (clocks : Side → T → T → Prop) (s s' : Exchange T) : Prop where
  todo : s'.todo = s.todo
  count : ∀ p, (s'.recorder p).count = (s.recorder p).count
  stage : ∀ p, Option.Rel (clocks p) (s.stage p) (s'.stage p)
  recv : ∀ p k, Option.Rel (clocks p) ((s.recorder p).recv k) ((s'.recorder p).recv k)
  sent : ∀ p k, Option.Rel (clocks p.other) ((s.recorder p).sent k) ((s'.recorder p).sent k)
  net : List.Forall₂ (Message.Alike clocks) s.net s'.net

theorem alike_start (n : Nat) : Alike clocks (start n) (start n) where
  todo := rfl
  count _ := rfl
  stage _ := .none
  recv _ _ := .none
  sent _ _ := .none
  net := .nil

theorem isSome_of_rel {R : T → T → Prop} {x y : Option T} (related : Option.Rel R x y) : y.isSome = x.isSome := by
  cases related <;> rfl

theorem rel_update {p : Side} {f f' : Side → Option T} (related : ∀ q, Option.Rel (clocks q) (f q) (f' q))
    {x x' : Option T} (new : Option.Rel (clocks p) x x') (q : Side) :
    Option.Rel (clocks q) (Function.update f p x q) (Function.update f' p x' q) := by
  by_cases same : q = p
  · subst same
    rwa [Function.update_self, Function.update_self]
  · rw [Function.update_of_ne same, Function.update_of_ne same]
    exact related q

theorem alike_receive (alike : Alike clocks s s') {i : Nat} {m m' : Message T} (message : Message.Alike clocks m m')
    {u u' : T} (time : m.stamp = none → clocks m.dest u u') :
    Alike clocks (s.receive i m u) (s'.receive i m' u') := by
  obtain ⟨dest, seq, stamp⟩ := message
  have stamped := isSome_of_rel stamp
  refine ⟨?_, fun p => ?_, alike.stage, fun p k => ?_, fun p k => ?_, Related.eraseIdx alike.net i⟩
  · funext p
    rw [receive_todo, receive_todo, dest, seq, stamped, alike.todo]
  · rw [receive_count, receive_count, dest, stamped, alike.count]
  · rw [receive_recv, receive_recv, dest, seq, stamped]
    split
    · rename_i here
      rw [← here.1]
      exact .some (time (Option.isSome_eq_false_iff.mp here.2.1 |> Option.isNone_iff_eq_none.mp))
    · exact alike.recv p k
  · rw [receive_sent, receive_sent, dest, seq, stamped]
    split
    · rename_i here
      rw [← here.1]
      exact stamp
    · exact alike.sent p k

theorem stepped_deliver {p : Side} {i : Nat} {u : T} (stepped : Stepped bound s (.deliver p i u) t) :
    ∃ m, s.net[i]? = some m ∧ m.dest = p ∧ s.receive i m u = t := by
  generalize action : Action.deliver p i u = a at stepped
  cases stepped with
  | @deliver j v m found accepts =>
    obtain ⟨rfl, rfl, rfl⟩ := Action.deliver.inj action
    exact ⟨m, found, rfl, rfl⟩
  | event | followUp | drop | dup => cases action

theorem alike_step (alike : Alike clocks s s') (same : SameAction clocks s a a') (stepped : Stepped bound s a t)
    (stepped' : Stepped bound s' a' t') : Alike clocks t t' := by
  cases same with
  | @event p u u' time =>
    cases stepped with
    | @event _ _ k rest todo =>
    cases stepped' with
    | @event _ _ k' rest' todo' =>
    rw [alike.todo, todo] at todo'
    obtain ⟨rfl, rfl⟩ := List.cons.inj todo'
    exact ⟨alike.todo, alike.count, rel_update alike.stage (.some time), alike.recv, alike.sent,
      Related.snoc alike.net ⟨rfl, rfl, .none⟩⟩
  | followUp p u u' =>
    cases stepped with
    | @followUp _ _ k rest v todo stage =>
    cases stepped' with
    | @followUp _ _ k' rest' v' todo' stage' =>
    rw [alike.todo, todo] at todo'
    obtain ⟨rfl, rfl⟩ := List.cons.inj todo'
    have stamp := alike.stage p
    rw [stage, stage'] at stamp
    have tail : (s'.sendFollowUp p k rest v' u').todo = (s.sendFollowUp p k rest v u).todo := by
      rw [sendFollowUp, sendFollowUp, alike.todo]
    refine ⟨tail, alike.count, rel_update alike.stage .none, alike.recv, alike.sent,
      Related.snoc alike.net ⟨rfl, rfl, ?_⟩⟩
    rwa [other_other]
  | @deliver p i u u' time =>
    obtain ⟨m, found, rfl, rfl⟩ := stepped_deliver stepped
    obtain ⟨m', found', -, rfl⟩ := stepped_deliver stepped'
    obtain ⟨e, same, message⟩ := Related.getElem? alike.net found
    obtain rfl := Option.some.inj (same.symm.trans found')
    exact alike_receive alike message (time m found)
  | drop i =>
    cases stepped with
    | drop =>
    cases stepped' with
    | drop => exact ⟨alike.todo, alike.count, alike.stage, alike.recv, alike.sent, Related.eraseIdx alike.net i⟩
  | dup i =>
    cases stepped with
    | dup found =>
    cases stepped' with
    | dup found' =>
    obtain ⟨m', same, message⟩ := Related.getElem? alike.net found
    obtain rfl := Option.some.inj (same.symm.trans found')
    exact ⟨alike.todo, alike.count, alike.stage, alike.recv, alike.sent, Related.snoc alike.net message⟩

end Exchange

end TwoStep
