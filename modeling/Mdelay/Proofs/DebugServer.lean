import Mdelay.Library.Transition
import Mdelay.Model.DebugServer
import Mdelay.Proofs.Recording

/-!
# What the debug server prints

A datagram shorter than a header is printed with the bytes that longer ones before it have left in the buffer.
-/

namespace Mdelay.DebugServer
open ByteOrder Transition

/-- The byte at `i` of the last datagram that has one, or else of the memory. -/
def lastByte (memory : List Byte) (ds : List (List Byte)) (i : Nat) : Byte :=
  ((ds.filter (i < ·.length)).getLast?.bind (·[i]?)).getD (memory.getD i 0)

/-- The bytes that are taken for the header after these datagrams. -/
def seen (memory : List Byte) (ds : List (List Byte)) : List Byte :=
  (List.range sizeofMdelayhdr).map (lastByte memory ds)

@[simp] theorem length_seen (memory : List Byte) (ds : List (List Byte)) : (seen memory ds).length = 40 := by
  rw [seen, List.length_map, List.length_range]
  rfl

theorem lastByte_snoc (memory : List Byte) (ds : List (List Byte)) (d : List Byte) (i : Nat) :
    lastByte memory (ds ++ [d]) i = if i < d.length then d.getD i 0 else lastByte memory ds i := by
  unfold lastByte
  rw [List.filter_append]
  by_cases inside : i < d.length
  · have own : [d].filter (i < ·.length) = [d] := by simp [inside]
    rw [if_pos inside, own, List.getLast?_concat, Option.bind_some, List.getElem?_eq_getElem inside, Option.getD_some]
    exact List.getElem_eq_getD 0
  · have none : [d].filter (i < ·.length) = [] := by simp [inside]
    rw [if_neg inside, none, List.append_nil]

/-- A whole header hides everything before it. -/
theorem seen_full (memory : List Byte) (ds : List (List Byte)) {d : List Byte} (full : 40 ≤ d.length) :
    seen memory (ds ++ [d]) = d.take 40 := by
  apply List.ext_getElem
  · rw [length_seen, List.length_take]
    omega
  · intro i inside inside'
    rw [length_seen] at inside
    have within : i < d.length := by omega
    simp only [seen, List.getElem_map, List.getElem_range, lastByte_snoc, if_pos within, List.getElem_take]
    exact (List.getElem_eq_getD 0).symm

/-- The state of the server after the datagrams `ds`. -/
structure Served (e : Endian) (memory : List Byte) (x : Server) (ds : List (List Byte)) : Prop where
  size : x.buffer.length = bufferSize
  front : x.buffer.take sizeofMdelayhdr = seen memory ds
  printed : x.printed = ((List.range ds.length).map fun k =>
    report (min bufferSize (ds.getD k []).length) (decode e (seen memory (ds.take (k + 1))))).flatten

theorem served_start (e : Endian) {memory : List Byte} (size : memory.length = bufferSize) :
    Served e memory ⟨true, memory, []⟩ [] := by
  refine ⟨size, ?_, rfl⟩
  have long : 40 ≤ memory.length := by
    rw [size]
    decide
  apply List.ext_getElem
  · rw [length_seen, List.length_take]
    exact Nat.min_eq_left long
  · intro i inside inside'
    rw [length_seen] at inside'
    have within : i < memory.length := by omega
    simp only [List.getElem_take, seen, List.getElem_map, List.getElem_range, lastByte, List.filter_nil]
    exact List.getElem_eq_getD 0

theorem front_memcpy {memory buffer : List Byte} {ds : List (List Byte)} (size : buffer.length = bufferSize)
    (front : buffer.take sizeofMdelayhdr = seen memory ds) (d : List Byte) :
    (memcpy buffer (d.take bufferSize)).take sizeofMdelayhdr = seen memory (ds ++ [d]) := by
  have fits : (d.take bufferSize).length ≤ buffer.length := by
    rw [size]
    exact List.length_take_le _ _
  have whole : (memcpy buffer (d.take bufferSize)).length = 1024 := by
    rw [length_memcpy fits]
    exact size
  have long : buffer.length = 1024 := size
  apply List.ext_getElem
  · rw [length_seen, List.length_take, whole]
    rfl
  · intro i _ inside
    rw [length_seen] at inside
    have cut : (d.take bufferSize).length = min 1024 d.length := List.length_take
    simp only [List.getElem_take, memcpy, seen, List.getElem_map, List.getElem_range, lastByte_snoc]
    by_cases within : i < d.length
    · have early : i < (d.take bufferSize).length := by omega
      rw [List.getElem_append_left early, List.getElem_take, if_pos within]
      exact List.getElem_eq_getD 0
    · have late : (d.take bufferSize).length ≤ i := by omega
      have there : i < buffer.length := by omega
      have old : buffer[i] = lastByte memory ds i := by
        have same := congrArg (·[i]?) front
        have short : i < sizeofMdelayhdr := inside
        simp only [List.getElem?_take_of_lt short, seen, List.getElem?_map, List.getElem?_range short, Option.map_some] at same
        rw [List.getElem?_eq_getElem there] at same
        exact Option.some.inj same
      rw [List.getElem_append_right late, List.getElem_drop, if_neg within, ← old]
      congr 1
      omega

theorem served_turn {e : Endian} {memory d : List Byte} {x y : Server} {ds : List (List Byte)}
    (served : Served e memory x ds) (turned : turn e x (some d) = some y) : Served e memory y (ds ++ [d]) := by
  obtain ⟨size, front, printed⟩ := served
  unfold turn at turned
  split at turned
  · obtain rfl := Option.some.inj turned
    have fits : (d.take bufferSize).length ≤ x.buffer.length := by
      rw [size]
      exact List.length_take_le _ _
    have front' := front_memcpy size front d
    have read : decode e (memcpy x.buffer (d.take bufferSize)) = decode e (seen memory (ds ++ [d])) := by
      rw [← front']
      exact (decode_take e _).symm
    have earlier : ((List.range ds.length).map fun k => report (min bufferSize ((ds ++ [d]).getD k []).length)
          (decode e (seen memory ((ds ++ [d]).take (k + 1))))) =
        (List.range ds.length).map fun k => report (min bufferSize (ds.getD k []).length)
          (decode e (seen memory (ds.take (k + 1)))) := by
      refine List.map_congr_left fun k member => ?_
      have inside := List.mem_range.mp member
      rw [List.getD_eq_getElem?_getD, List.getElem?_append_left inside, ← List.getD_eq_getElem?_getD,
        List.take_append_of_le_length (by omega)]
    refine ⟨(length_memcpy fits).trans size, front', ?_⟩
    have all : (ds ++ [d]).take (ds.length + 1) = ds ++ [d] := List.take_of_length_le (by simp)
    rw [List.length_append, List.length_singleton, List.range_succ, List.map_append, List.flatten_append, earlier]
    dsimp only
    rw [printed, read, List.length_take]
    simp [all]
  · cases turned

/-- What is printed of the `k`-th datagram: its own header, when it has one, and otherwise one that starts with the
datagram and goes on with what the last longer ones had there. -/
def shown (memory : List Byte) (ds : List (List Byte)) (k : Nat) : Header :=
  if 40 ≤ (ds.getD k []).length then decode .big (ds.getD k []) else decode .big (seen memory (ds.take (k + 1)))

theorem decode_seen (e : Endian) (memory : List Byte) {ds : List (List Byte)} {k : Nat} (inside : k < ds.length) :
    decode e (seen memory (ds.take (k + 1))) = shown memory ds k := by
  have own : ds.getD k [] = ds[k] := (List.getElem_eq_getD []).symm
  rw [decode_endian e (by simp), shown]
  split
  · rename_i full
    rw [own] at full ⊢
    rw [List.take_add_one, List.getElem?_eq_getElem inside, Option.toList_some, seen_full memory _ full, decode_take]
  · rfl

/-- In every run, on a host of either byte order, the server prints one report for each datagram, in order. -/
theorem prints_headers (e : Endian) (memory : List Byte) (size : memory.length = bufferSize)
    (inputs : List (Option (List Byte))) (x : Server) (run : Run (turn e) Any ⟨true, memory, []⟩ inputs x) :
    x.printed = ((List.range (inputs.filterMap id).length).map fun k =>
      report (min bufferSize ((inputs.filterMap id).getD k []).length) (shown memory (inputs.filterMap id) k)).flatten := by
  have served := run_history (I := Served e memory) (f := id) (h := []) ?_ (served_start e size) run
  · rw [List.nil_append] at served
    have each : ((List.range (inputs.filterMap id).length).map fun k =>
          report (min bufferSize ((inputs.filterMap id).getD k []).length)
            (decode e (seen memory ((inputs.filterMap id).take (k + 1))))) =
        (List.range (inputs.filterMap id).length).map fun k =>
          report (min bufferSize ((inputs.filterMap id).getD k []).length) (shown memory (inputs.filterMap id) k) := by
      refine List.map_congr_left fun k member => ?_
      rw [decode_seen e memory (List.mem_range.mp member)]
    exact served.printed.trans (congrArg List.flatten each)
  · intro x ds input y served _ turned
    cases input with
    | none =>
      unfold turn at turned
      split at turned
      · obtain rfl := Option.some.inj turned
        rw [id, Option.toList_none, List.append_nil]
        exact ⟨served.size, served.front, served.printed⟩
      · cases turned
    | some d => exact served_turn served turned

/-- A request with the number 1, and five bytes that would be a response with the number 2. -/
def shortAfterFull : List (Option (List Byte)) :=
  [some ([0, 0, 0, 1, 0, 0, 0, 0, 0, 0, 0, 0, 0, 0, 0, 7] ++ List.replicate 24 0), some [0, 0, 0, 2, 2], none]

/-- The report of the response shows the `t1` of the request. -/
theorem prints_headers_short : ∃ x, Run (turn .little) Any ⟨true, List.replicate 1024 0, []⟩ shortAfterFull x ∧
    x.printed = report 40 ⟨1, 0, 7, 0, 0, 0⟩ ++ report 5 ⟨2, 2, 7, 0, 0, 0⟩ := by
  obtain ⟨x, run, -⟩ := run_of_exec (turn .little) Any ⟨true, List.replicate 1024 0, []⟩ shortAfterFull Server.running false
    (by decide +kernel)
  refine ⟨x, run, ?_⟩
  rw [prints_headers .little (List.replicate 1024 0) List.length_replicate shortAfterFull x run]
  decide +kernel

end Mdelay.DebugServer
