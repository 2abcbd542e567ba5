import Mdelay.Protocol.Exchange

/-!
# Where the recorded times come from

Over a network that loses, duplicates and reorders messages every time a recorder holds was seen:
as a reception of the event, or as the sending of an event by the other side, which at the responder
answers a follow-up.
-/

namespace TwoStep.Exchange

variable {T : Type*} {bound : Side → Nat} {s s' : Exchange T} {a : Action T}

/-! ### Numbers -/

structure Numbered (n : Nat) (s : Exchange T) : Prop where
  todo : ∀ p, ∀ k ∈ s.todo p, k < n
  net : ∀ m ∈ s.net, m.seq < n
  trace : ∀ o ∈ s.trace, o.seq < n

theorem numbered_start (n : Nat) : Numbered n (start n : Exchange T) where
  todo p k member := by
    cases p with
    | initiator => exact List.mem_range.mp member
    | responder => cases member
  net _ member := by cases member
  trace _ member := by cases member

theorem numbered_step {n : Nat} (inv : Numbered n s) (stepped : Stepped bound s a s') : Numbered n s' := by
  obtain ⟨todo, net, trace⟩ := inv
  cases stepped with
  | @event p t k rest tasks stage =>
    have small : k < n := todo p k (by rw [tasks]; exact List.mem_cons_self)
    exact ⟨todo, forall_mem_snoc.mpr ⟨net, small⟩, forall_mem_snoc.mpr ⟨trace, small⟩⟩
  | @followUp p t k rest u tasks stage =>
    have small : k < n := todo p k (by rw [tasks]; exact List.mem_cons_self)
    refine ⟨fun q j member => ?_, forall_mem_snoc.mpr ⟨net, small⟩, forall_mem_snoc.mpr ⟨trace, small⟩⟩
    by_cases same : q = p
    · subst same
      rw [sendFollowUp] at member
      dsimp only at member
      rw [Function.update_self] at member
      exact todo q j (by rw [tasks]; exact List.mem_cons_of_mem _ member)
    · exact todo q j (by simpa [sendFollowUp, same] using member)
  | @deliver i t m found accepts =>
    have small : m.seq < n := net m (List.mem_of_getElem? found)
    refine ⟨fun q j member => ?_, fun m' member => net m' (List.mem_of_mem_eraseIdx member),
      forall_mem_snoc.mpr ⟨trace, small⟩⟩
    rw [receive_todo] at member
    split at member
    · exact List.mem_singleton.mp member ▸ small
    · exact todo q j member
  | drop inside => exact ⟨todo, fun m' member => net m' (List.mem_of_mem_eraseIdx member), trace⟩
  | dup found => exact ⟨todo, forall_mem_snoc.mpr ⟨net, net _ (List.mem_of_getElem? found)⟩, trace⟩

/-! ### Times -/

structure Sourced (s : Exchange T) : Prop where
  stage : ∀ p k rest t, s.todo p = k :: rest → s.stage p = some t → ⟨p, true, false, k, t⟩ ∈ s.trace
  stamp : ∀ m ∈ s.net, ∀ t, m.stamp = some t → ⟨m.dest.other, true, false, m.seq, t⟩ ∈ s.trace
  recv : ∀ p k t, (s.recorder p).recv k = some t → ⟨p, false, false, k, t⟩ ∈ s.trace
  sent : ∀ p k t, (s.recorder p).sent k = some t → ⟨p.other, true, false, k, t⟩ ∈ s.trace
  recvSeen : ∀ p, ∀ k ∈ seqs s.trace p false false, ((s.recorder p).recv k).isSome = true
  sentSeen : ∀ p, ∀ k ∈ seqs s.trace p false true, ((s.recorder p).sent k).isSome = true

theorem sourced_start (n : Nat) : Sourced (start n : Exchange T) where
  stage _ _ _ _ _ staged := by cases staged
  stamp _ member := by cases member
  recv _ _ _ recorded := by cases recorded
  sent _ _ _ recorded := by cases recorded
  recvSeen _ _ member := by cases member
  sentSeen _ _ member := by cases member

theorem receive_recv (s : Exchange T) (i : Nat) (m : Message T) (t : T) (p : Side) (k : Nat) :
    ((s.receive i m t).recorder p).recv k =
      if m.dest = p ∧ m.stamp.isSome = false ∧ m.seq = k then some t else (s.recorder p).recv k := by
  by_cases here : m.dest = p
  · subst here
    cases stamp : m.stamp with
    | none => by_cases same : m.seq = k <;> simp [receive, Message.half, stamp, same, @eq_comm _ k]
    | some u => simp [receive, Message.half, stamp]
  · have other : ¬ p = m.dest := fun equal => here equal.symm
    simp [receive, here, other]

theorem receive_sent (s : Exchange T) (i : Nat) (m : Message T) (t : T) (p : Side) (k : Nat) :
    ((s.receive i m t).recorder p).sent k =
      if m.dest = p ∧ m.stamp.isSome = true ∧ m.seq = k then m.stamp else (s.recorder p).sent k := by
  by_cases here : m.dest = p
  · subst here
    cases stamp : m.stamp with
    | none => simp [receive, Message.half, stamp]
    | some u => by_cases same : m.seq = k <;> simp [receive, Message.half, stamp, same, @eq_comm _ k]
  · have other : ¬ p = m.dest := fun equal => here equal.symm
    simp [receive, here, other]

theorem sourced_sendEvent (inv : Sourced s) {p : Side} {t : T} {k : Nat} {rest : List Nat}
    (tasks : s.todo p = k :: rest) : Sourced (s.sendEvent p k t) := by
  refine ⟨fun q j rest' u todo staged => ?_,
    forall_mem_snoc.mpr ⟨fun m member u stamped => ?_, fun u stamped => ?_⟩,
    fun q j u found => List.mem_append_left _ (inv.recv q j u found),
    fun q j u found => List.mem_append_left _ (inv.sent q j u found), fun q j member => ?_, fun q j member => ?_⟩
  · by_cases same : q = p
    · subst same
      have head : s.todo q = j :: rest' := todo
      obtain ⟨rfl, rfl⟩ := List.cons.inj (tasks.symm.trans head)
      obtain rfl : t = u := by simpa [sendEvent] using staged
      exact List.mem_append_right _ (List.mem_singleton_self _)
    · exact List.mem_append_left _ (inv.stage q j rest' u todo (by simpa [sendEvent, same] using staged))
  · exact List.mem_append_left _ (inv.stamp m member u stamped)
  · cases stamped
  · exact inv.recvSeen q j (by simpa [sendEvent, seqs_snoc] using member)
  · exact inv.sentSeen q j (by simpa [sendEvent, seqs_snoc] using member)

theorem sourced_sendFollowUp (inv : Sourced s) {p : Side} {t u : T} {k : Nat} {rest : List Nat}
    (tasks : s.todo p = k :: rest) (staged : s.stage p = some u) : Sourced (s.sendFollowUp p k rest u t) := by
  refine ⟨fun q j rest' v todo staged' => ?_,
    forall_mem_snoc.mpr ⟨fun m member v stamped => ?_, fun v stamped => ?_⟩,
    fun q j v found => List.mem_append_left _ (inv.recv q j v found),
    fun q j v found => List.mem_append_left _ (inv.sent q j v found), fun q j member => ?_, fun q j member => ?_⟩
  · by_cases same : q = p
    · subst same
      simp [sendFollowUp] at staged'
    · exact List.mem_append_left _ (inv.stage q j rest' v (by simpa [sendFollowUp, same] using todo)
        (by simpa [sendFollowUp, same] using staged'))
  · exact List.mem_append_left _ (inv.stamp m member v stamped)
  · obtain rfl := Option.some.inj stamped
    rw [other_other]
    exact List.mem_append_left _ (inv.stage p k rest u tasks staged)
  · exact inv.recvSeen q j (by simpa [sendFollowUp, seqs_snoc] using member)
  · exact inv.sentSeen q j (by simpa [sendFollowUp, seqs_snoc] using member)

theorem sourced_receive {n : Nat} (orderly : Orderly n bound s) (inv : Sourced s) {i : Nat} {m : Message T} {t : T}
    (found : s.net[i]? = some m) (accepts : s.accepts bound m.dest) : Sourced (s.receive i m t) := by
  refine ⟨fun q j rest' u todo staged => ?_,
    fun m' member u stamped => List.mem_append_left _ (inv.stamp m' (List.mem_of_mem_eraseIdx member) u stamped),
    fun q j u recorded => ?_, fun q j u recorded => ?_, fun q j reached => ?_, fun q j reached => ?_⟩
  · rw [receive_todo] at todo
    split at todo
    · rename_i answered
      obtain rfl := answered.1
      have idle : s.stage .responder = none := (idle_of_accepts orderly accepts answered.2.1).2
      rw [show (s.receive i m t).stage .responder = none from idle] at staged
      cases staged
    · exact List.mem_append_left _ (inv.stage q j rest' u todo staged)
  · rw [receive_recv] at recorded
    split at recorded
    · rename_i here
      obtain ⟨rfl, event, rfl⟩ := here
      obtain rfl := Option.some.inj recorded
      rw [receive, event]
      exact List.mem_append_right _ (List.mem_singleton_self _)
    · exact List.mem_append_left _ (inv.recv q j u recorded)
  · rw [receive_sent] at recorded
    split at recorded
    · rename_i here
      obtain ⟨rfl, -, rfl⟩ := here
      exact List.mem_append_left _ (inv.stamp m (List.mem_of_getElem? found) u recorded)
    · exact List.mem_append_left _ (inv.sent q j u recorded)
  · rw [receive_recv]
    split
    · rfl
    · rename_i other
      rcases mem_seqs_snoc.mp reached with old | ⟨here, -, event, number⟩
      · exact inv.recvSeen q j old
      · exact absurd ⟨here, event, number⟩ other
  · rw [receive_sent]
    split
    · rename_i here
      exact here.2.1
    · rename_i other
      rcases mem_seqs_snoc.mp reached with old | ⟨here, -, followUp, number⟩
      · exact inv.sentSeen q j old
      · exact absurd ⟨here, followUp, number⟩ other

/-- Copies and losses bring nothing on its way that was not there. -/
theorem sourced_of_net_subset (inv : Sourced s) {net : List (Message T)} (known : ∀ m ∈ net, m ∈ s.net) :
    Sourced { s with net := net } :=
  ⟨inv.stage, fun m member => inv.stamp m (known m member), inv.recv, inv.sent, inv.recvSeen, inv.sentSeen⟩

theorem sourced_step {n : Nat} (orderly : Orderly n bound s) (inv : Sourced s)
    (stepped : Stepped bound s a s') : Sourced s' := by
  cases stepped with
  | event tasks stage => exact sourced_sendEvent inv tasks
  | followUp tasks stage => exact sourced_sendFollowUp inv tasks stage
  | deliver found accepts => exact sourced_receive orderly inv found accepts
  | drop inside => exact sourced_of_net_subset inv fun m => List.mem_of_mem_eraseIdx
  | dup found =>
    exact sourced_of_net_subset inv (forall_mem_snoc.mpr ⟨fun m member => member, List.mem_of_getElem? found⟩)

/-! ### Answers -/

/-- The last thing the responder has received is a follow-up `k`, which the initiator had sent. -/
def Asked (trace : List (Sighting T)) (k : Nat) : Prop :=
  ∃ before between after u v,
    trace = before ++ ⟨.initiator, true, true, k, u⟩ :: (between ++ ⟨.responder, false, true, k, v⟩ :: after) ∧
      ∀ o ∈ after, ¬ (o.side = .responder ∧ o.sent = false)

/-- The responder sent event `k` at `t` in answer to a follow-up `k`. -/
def Answer (trace : List (Sighting T)) (k : Nat) (t : T) : Prop :=
  ∃ before after, trace = before ++ ⟨.responder, true, false, k, t⟩ :: after ∧ Asked before k

theorem asked_snoc {trace : List (Sighting T)} {k : Nat} (asked : Asked trace k) {o : Sighting T}
    (other : ¬ (o.side = .responder ∧ o.sent = false)) : Asked (trace ++ [o]) k := by
  obtain ⟨before, between, after, u, v, rfl, quiet⟩ := asked
  refine ⟨before, between, after ++ [o], u, v, by simp, fun o' member => ?_⟩
  rcases List.mem_append.mp member with old | new
  · exact quiet o' old
  · exact List.mem_singleton.mp new ▸ other

theorem answer_snoc {trace : List (Sighting T)} {k : Nat} {t : T} (answer : Answer trace k t) (o : Sighting T) :
    Answer (trace ++ [o]) k t := by
  obtain ⟨before, after, rfl, asked⟩ := answer
  exact ⟨before, after ++ [o], by simp, asked⟩

structure Answered (s : Exchange T) : Prop where
  single : (s.todo .responder).length ≤ 1
  followUp : ∀ m ∈ s.net, m.dest = .responder → m.stamp.isSome = true → m.seq ∈ seqs s.trace .initiator true true
  asked : ∀ k ∈ s.todo .responder, s.stage .responder = none → Asked s.trace k
  stage : ∀ k ∈ s.todo .responder, ∀ t, s.stage .responder = some t → Answer s.trace k t
  stamp : ∀ m ∈ s.net, m.dest = .initiator → ∀ t, m.stamp = some t → Answer s.trace m.seq t
  sent : ∀ k t, (s.recorder .initiator).sent k = some t → Answer s.trace k t

theorem answered_start (n : Nat) : Answered (start n : Exchange T) where
  single := Nat.zero_le _
  followUp _ member := by cases member
  asked _ member := by cases member
  stage _ member := by cases member
  stamp _ member := by cases member
  sent _ _ recorded := by cases recorded

theorem eq_singleton_of_single (inv : Answered s) {k : Nat} {rest : List Nat} (todo : s.todo .responder = k :: rest) :
    s.todo .responder = [k] := by
  have single := inv.single
  rw [todo, List.length_cons] at single
  rw [todo, List.length_eq_zero_iff.mp (show rest.length = 0 by omega)]

theorem answered_sendEvent (inv : Answered s) {p : Side} {t : T} {k : Nat} {rest : List Nat}
    (todo : s.todo p = k :: rest) (idle : s.stage p = none) : Answered (s.sendEvent p k t) := by
  refine ⟨inv.single, forall_mem_snoc.mpr ⟨fun m member here stamped => ?_, fun here stamped => ?_⟩,
    fun j member idle' => ?_, fun j member v staged => ?_,
    forall_mem_snoc.mpr ⟨fun m member here v stamped => ?_, fun here v stamped => ?_⟩,
    fun j v recorded => answer_snoc (inv.sent j v recorded) _⟩
  · exact mem_seqs_snoc.mpr (Or.inl (inv.followUp m member here stamped))
  · cases stamped
  · cases p with
    | initiator => exact asked_snoc (inv.asked j member idle') (by simp)
    | responder => simp [sendEvent] at idle'
  · cases p with
    | initiator => exact answer_snoc (inv.stage j member v staged) _
    | responder =>
      obtain rfl : t = v := by simpa [sendEvent] using staged
      have member : j ∈ s.todo .responder := member
      have tasks : s.todo .responder = [k] := eq_singleton_of_single inv todo
      obtain rfl : j = k := List.mem_singleton.mp (tasks ▸ member)
      exact ⟨s.trace, [], rfl, inv.asked j member idle⟩
  · exact answer_snoc (inv.stamp m member here v stamped) _
  · cases stamped

theorem answered_sendFollowUp_initiator (inv : Answered s) {t u : T} {k : Nat} {rest : List Nat} :
    Answered (s.sendFollowUp .initiator k rest u t) := by
  refine ⟨inv.single, forall_mem_snoc.mpr ⟨fun m member here stamped => ?_, fun here stamped => ?_⟩,
    fun j member idle => ?_, fun j member v staged => ?_,
    forall_mem_snoc.mpr ⟨fun m member here v stamped => ?_, fun here v stamped => ?_⟩,
    fun j v recorded => answer_snoc (inv.sent j v recorded) _⟩
  · exact mem_seqs_snoc.mpr (Or.inl (inv.followUp m member here stamped))
  · exact mem_seqs_snoc.mpr (Or.inr ⟨rfl, rfl, rfl, rfl⟩)
  · exact asked_snoc (inv.asked j member idle) (by simp)
  · exact answer_snoc (inv.stage j member v staged) _
  · exact answer_snoc (inv.stamp m member here v stamped) _
  · cases here

theorem answered_sendFollowUp_responder (inv : Answered s) {t u : T} {k : Nat} {rest : List Nat}
    (todo : s.todo .responder = k :: rest) (staged : s.stage .responder = some u) :
    Answered (s.sendFollowUp .responder k rest u t) := by
  obtain ⟨-, rfl⟩ := List.cons.inj (todo.symm.trans (eq_singleton_of_single inv todo))
  refine ⟨Nat.zero_le _, forall_mem_snoc.mpr ⟨fun m member here stamped => ?_, fun here stamped => ?_⟩,
    fun j member => (by cases member), fun j member => (by cases member),
    forall_mem_snoc.mpr ⟨fun m member here v stamped => ?_, fun here v stamped => ?_⟩,
    fun j v recorded => answer_snoc (inv.sent j v recorded) _⟩
  · exact mem_seqs_snoc.mpr (Or.inl (inv.followUp m member here stamped))
  · cases here
  · exact answer_snoc (inv.stamp m member here v stamped) _
  · obtain rfl := Option.some.inj stamped
    exact answer_snoc (inv.stage k (by rw [todo]; exact List.mem_cons_self) u staged) _

theorem answered_receive {n : Nat} (orderly : Orderly n bound s) (inv : Answered s) {i : Nat} {m : Message T} {t : T}
    (found : s.net[i]? = some m) (accepts : s.accepts bound m.dest) : Answered (s.receive i m t) := by
  have member := List.mem_of_getElem? found
  have elsewhere {j : Nat} (busy : j ∈ s.todo .responder) :
      ¬ (m.dest = .responder ∧ false = false) := fun here => by
    rw [(idle_of_accepts orderly accepts here.1).1] at busy
    cases busy
  refine ⟨?_, fun m' member' here stamped => ?_, fun j member' unsent => ?_, fun j member' v staged => ?_,
    fun m' member' here v stamped => ?_, fun j v recorded => ?_⟩
  · rw [receive_todo]
    split
    · exact Nat.le_refl 1
    · exact inv.single
  · exact mem_seqs_snoc.mpr (Or.inl (inv.followUp m' (List.mem_of_mem_eraseIdx member') here stamped))
  · rw [receive_todo] at member'
    split at member'
    · rename_i answered
      obtain rfl := List.mem_singleton.mp member'
      obtain ⟨u, sentBefore⟩ := mem_seqs.mp (inv.followUp m member answered.2.1 answered.2.2)
      obtain ⟨before, between, split⟩ := List.append_of_mem sentBefore
      refine ⟨before, between, [], u, t, ?_, fun o none => by cases none⟩
      simp only [receive, split, answered.2.1, answered.2.2, List.append_assoc, List.cons_append]
    · exact asked_snoc (inv.asked j member' unsent) (elsewhere member')
  · rw [receive_todo] at member'
    split at member'
    · rename_i answered
      have idle : s.stage .responder = none := (idle_of_accepts orderly accepts answered.2.1).2
      rw [show (s.receive i m t).stage .responder = none from idle] at staged
      cases staged
    · exact answer_snoc (inv.stage j member' v staged) _
  · exact answer_snoc (inv.stamp m' (List.mem_of_mem_eraseIdx member') here v stamped) _
  · rw [receive_sent] at recorded
    split at recorded
    · rename_i here
      obtain ⟨here, -, rfl⟩ := here
      exact answer_snoc (inv.stamp m member here v recorded) _
    · exact answer_snoc (inv.sent j v recorded) _

theorem answered_of_net_subset (inv : Answered s) {net : List (Message T)} (known : ∀ m ∈ net, m ∈ s.net) :
    Answered { s with net := net } :=
  ⟨inv.single, fun m member => inv.followUp m (known m member), inv.asked, inv.stage,
    fun m member => inv.stamp m (known m member), inv.sent⟩

theorem answered_step {n : Nat} (orderly : Orderly n bound s) (inv : Answered s)
    (stepped : Stepped bound s a s') : Answered s' := by
  cases stepped with
  | event todo idle => exact answered_sendEvent inv todo idle
  | @followUp p t k rest u todo staged =>
    cases p with
    | initiator => exact answered_sendFollowUp_initiator inv
    | responder => exact answered_sendFollowUp_responder inv todo staged
  | deliver found accepts => exact answered_receive orderly inv found accepts
  | drop inside => exact answered_of_net_subset inv fun m => List.mem_of_mem_eraseIdx
  | dup found =>
    exact answered_of_net_subset inv (forall_mem_snoc.mpr ⟨fun m member => member, List.mem_of_getElem? found⟩)

/-! ### Runs -/

structure Traced (n : Nat) (bound : Side → Nat) (s : Exchange T) : Prop where
  orderly : Orderly n bound s
  numbered : Numbered n s
  sourced : Sourced s
  answered : Answered s

theorem traced_start (n : Nat) (bound : Side → Nat) : Traced n bound (start n : Exchange T) :=
  ⟨orderly_start n bound, numbered_start n, sourced_start n, answered_start n⟩

theorem traced_step {n : Nat} (inv : Traced n bound s) (stepped : Stepped bound s a s') : Traced n bound s' :=
  ⟨orderly_step inv.orderly stepped, numbered_step inv.numbered stepped,
    sourced_step inv.orderly inv.sourced stepped, answered_step inv.orderly inv.answered stepped⟩

end TwoStep.Exchange
