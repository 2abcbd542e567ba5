import Mdelay.Library.Transition
import Mdelay.Model.Options
import Mdelay.Proofs.Beyond

/-!
# What a command line sets

A program accepts the command lines that spell its options in any of the ways `getopt` allows. Of every
option the last one counts, and one that is not given leaves the default.
-/

namespace Mdelay
open ByteOrder Getopt Overrun

theorem toNat_atoiPort (port : BitVec 16) : atoiPort (Text.decimal port.toNat) = port := by
  have small := port.isLt
  rw [atoiPort, Text.atoi_decimal (by omega)]
  apply BitVec.eq_of_toNat_eq
  simp only [BitVec.toNat_setWidth, BitVec.toNat_ofNat]
  omega

theorem atoi_word (number : BitVec 32) : Text.atoi (Text.decimal number.toNat) = number := by
  have small := number.isLt
  rw [Text.atoi_decimal (by omega), BitVec.ofNat_toNat, BitVec.setWidth_eq]

namespace Master

def settings (opts : List Opt) : Configuration where
  protocol := if .flag 'u' ∈ opts then .udp else .tcp
  slaveIp := last 's' opts
  sport := (last 'l' opts).elim 9336 atoiPort
  dport := (last 'd' opts).elim 9337 atoiPort
  measureNumber := (last 'n' opts).elim 10 Text.atoi

def handled : Opt → Prop
  | .flag c => c = 'u'
  | .arg c _ => c ∈ ['s', 'l', 'd', 'n']
  | .bad => False

theorem apply_settings (opts : List Opt) (o : Opt) (cfg : Configuration) :
    (settings opts).apply o = some cfg ↔ handled o ∧ cfg = settings (opts ++ [o]) := by
  unfold Configuration.apply
  split
  · simp [handled, settings, @eq_comm _ cfg]
  · simp [handled, settings, @eq_comm _ cfg]
  · simp [handled, settings, @eq_comm _ cfg]
  · simp [handled, settings, @eq_comm _ cfg]
  · simp [handled, settings, @eq_comm _ cfg]
  · rename_i s l d u n
    simp only [reduceCtorEq, false_iff, not_and]
    intro known
    cases o with
    | flag c =>
      simp only [handled] at known
      simp [known] at u
    | arg c value =>
      simp only [handled, List.mem_cons, List.not_mem_nil, or_false] at known
      rcases known with rfl | rfl | rfl | rfl <;> simp at s l d n
    | bad => exact known.elim

theorem handled_of_knows (o : Opt) (knows : optstring.Knows o) : handled o := by
  cases o with
  | flag c =>
    simp only [Spec.Knows, optstring, Option.not_mem_none, false_and, exists_false, or_false] at knows
    split at knows <;> simp_all [handled]
  | arg c value =>
    simp only [Spec.Knows, optstring, Option.not_mem_none, false_and, exists_false, or_false] at knows
    split at knows <;> simp_all [handled]
  | bad => exact knows

theorem parseOptions_eq_some_iff (args : List Text) (cfg : Configuration) :
    parseOptions args = some cfg ↔ ∃ opts, Spells optstring args opts ∧ cfg = settings opts :=
  parse_eq_some_iff_spells rfl not_false apply_settings handled_of_knows args cfg

/-- A command line that asks for the configuration. -/
def Configuration.arguments (cfg : Configuration) : List Text :=
  ['-', 'l'] :: Text.decimal cfg.sport.toNat :: ['-', 'd'] :: Text.decimal cfg.dport.toNat ::
    ['-', 'n'] :: Text.decimal cfg.measureNumber.toNat ::
      ((cfg.slaveIp.elim [] fun ip => [['-', 's'], ip]) ++ if cfg.protocol = .udp then [['-', 'u']] else [])

theorem parseOptions_arguments (cfg : Configuration) : parseOptions cfg.arguments = some cfg := by
  obtain ⟨protocol, slaveIp, sport, dport, measureNumber⟩ := cfg
  have number {opts : List Opt} {rest : List Text} (spells : Spells optstring rest opts) :=
    spells_arg (c := 'l') rfl (Text.decimal sport.toNat) (spells_arg (c := 'd') rfl (Text.decimal dport.toNat)
      (spells_arg (c := 'n') rfl (Text.decimal measureNumber.toNat) spells))
  refine (parseOptions_eq_some_iff _ _).mpr ?_
  have ports := toNat_atoiPort
  cases slaveIp with
  | none =>
    cases protocol with
    | tcp => exact ⟨_, number .nil, by simp [settings, last, ports, atoi_word]⟩
    | udp => exact ⟨_, number (spells_flag rfl .nil), by simp [settings, last, ports, atoi_word]⟩
  | some ip =>
    cases protocol with
    | tcp => exact ⟨_, number (spells_arg rfl ip .nil), by simp [settings, last, ports, atoi_word]⟩
    | udp => exact ⟨_, number (spells_arg rfl ip (spells_flag rfl .nil)), by simp [settings, last, ports, atoi_word]⟩

end Master

namespace Slave

def settings (opts : List Opt) : Configuration where
  protocol := if .flag 'u' ∈ opts then .udp else .tcp
  measureNumber := (last 'n' opts).elim 0 Text.atoi
  port := (last 'p' opts).elim 9337 atoiPort

def handled : Opt → Prop
  | .flag c => c = 'u'
  | .arg c _ => c ∈ ['p', 'n']
  | .bad => False

theorem apply_settings (opts : List Opt) (o : Opt) (cfg : Configuration) :
    (settings opts).apply o = some cfg ↔ handled o ∧ cfg = settings (opts ++ [o]) := by
  unfold Configuration.apply
  split
  · simp [handled, settings, @eq_comm _ cfg]
  · simp [handled, settings, @eq_comm _ cfg]
  · simp [handled, settings, @eq_comm _ cfg]
  · rename_i n u p
    simp only [reduceCtorEq, false_iff, not_and]
    intro known
    cases o with
    | flag c =>
      simp only [handled] at known
      simp [known] at u
    | arg c value =>
      simp only [handled, List.mem_cons, List.not_mem_nil, or_false] at known
      rcases known with rfl | rfl <;> simp at n p
    | bad => exact known.elim

theorem handled_of_knows (o : Opt) (knows : optstring.Knows o) : handled o := by
  cases o with
  | flag c =>
    simp only [Spec.Knows, optstring, Option.not_mem_none, false_and, exists_false, or_false] at knows
    split at knows <;> simp_all [handled]
  | arg c value =>
    simp only [Spec.Knows, optstring, Option.not_mem_none, false_and, exists_false, or_false] at knows
    split at knows <;> simp_all [handled]
  | bad => exact knows

theorem parseOptions_eq_some_iff (args : List Text) (cfg : Configuration) :
    parseOptions args = some cfg ↔ ∃ opts, Spells optstring args opts ∧ cfg = settings opts :=
  parse_eq_some_iff_spells rfl not_false apply_settings handled_of_knows args cfg

/-! ### No number -/

theorem measureNumber_of_omitted {args : List Text} {cfg : Configuration} (accepted : parseOptions args = some cfg)
    (omitted : ∀ value, .arg 'n' value ∉ optstring.getopt args) : cfg.measureNumber = 0 := by
  obtain ⟨opts, spells, rfl⟩ := (parseOptions_eq_some_iff args cfg).mp accepted
  rw [getopt_of_spells rfl spells] at omitted
  simp [settings, last_eq_none_iff.mpr omitted]

theorem of_poke_empty {m m' : Measurements (entries 0)} {around around' : Entries} {pktseq : Int}
    {f : P2pdelay → P2pdelay} (written : m.poke around pktseq f = some (m', around')) :
    m' = m ∧ ∃ d, around pktseq = some d ∧ around' = Function.update around pktseq (some (f d)) := by
  obtain ⟨⟨xs, around''⟩, wrote, same⟩ := Option.map_eq_some_iff.mp written
  obtain ⟨rfl, rfl⟩ := Prod.mk.inj same
  rcases of_write wrote with ⟨inside, -⟩ | ⟨-, rfl, d, there, kept⟩
  · have below : pktseq < ((entries 0 : Nat) : Int) := inside.2
    rw [show entries 0 = 0 from rfl] at below
    exact absurd below (Int.not_lt.mpr inside.1)
  · exact ⟨rfl, d, there, kept⟩

/-- What the first datagram of a slave of no entries leaves behind. -/
theorem turnOn_first {e : Endian} {var : Int} {around : Entries} {input : (Stack × Recvmsg) × Timespec}
    {l : (program e 0).LoopOn}
    (turned : Role.slave.turnOn e 0 ((program e 0).enterOn var around) input = some l) :
    l.loop.status ≠ .running ∧ (l.loop.status = .left →
      (program e 0).total l.loop.st = 0 ∨
        let h := decode e (input.1.2.buffer input.1.1)
        (program e 0).total l.loop.st = 1 ∧ h.type = PktType.delayReqFollowUp.code ∧
          ∃ d, around h.seq.toNat = some d ∧
            l.around = Function.update around h.seq.toNat (some { d with sentTt := h.t2 })) := by
  obtain ⟨-, ⟨got, st, around', outcome, rfl⟩ | ⟨-, -, ended⟩⟩ := turnOn_cases turned
  · refine ⟨fun running => BitVec.not_lt_zero ((running_afterRecv _ got st).mp running).2.2, fun _ => ?_⟩
    · change st.meas.totalMeasurements = 0 ∨ (st.meas.totalMeasurements = 1 ∧ _)
      have outcome : (doRecvOn e input.1.1 input.1.2 input.2 (program e 0).start around).outcome =
        some (got, st, around') := outcome
      rcases of_outcomeOn outcome with ⟨-, rfl, -⟩ | ⟨u, host, m, recorded, rfl, arm⟩
      · exact Or.inl rfl
      · have fresh : u.meas.totalMeasurements = 0 := congrArg Measurements.totalMeasurements (Slave.recordPeer_meas recorded)
        rcases arm with ⟨-, t, written⟩ | ⟨type, written⟩
        · obtain ⟨rfl, -⟩ := of_poke_empty written
          exact Or.inl fresh
        · obtain ⟨rfl, d, there, kept⟩ := of_poke_empty written
          refine Or.inr ⟨?_, type, d, there, kept⟩
          change u.meas.totalMeasurements + 1 = 1
          rw [fresh]
          rfl
  · rcases ended with exited | faulted
    · rw [exited]
      exact ⟨LoopStatus.noConfusion, LoopStatus.noConfusion⟩
    · rw [faulted]
      exact ⟨LoopStatus.noConfusion, LoopStatus.noConfusion⟩

/-- A slave started without `-n` has an array of no entries, and its first datagram ends it. Its file is empty, or
it has one line, read behind the array, after a follow-up that was written behind it. -/
theorem number_omitted (args : List Text) (cfg : Configuration) (accepted : parseOptions args = some cfg)
    (omitted : ∀ value, .arg 'n' value ∉ optstring.getopt args) (e : Endian) (var : Int) (around : Entries)
    (inputs : List ((Stack × Recvmsg) × Timespec)) (l : (program e cfg.measureNumber).LoopOn)
    (run : Transition.Run (Role.slave.turnOn e cfg.measureNumber) Transition.Any
      ((program e cfg.measureNumber).enterOn var around) inputs l) (received : inputs ≠ []) :
    ∃ input, inputs = [input] ∧ l.loop.status ≠ .running ∧
      (l.loop.status = .left →
        (program e cfg.measureNumber).resultsOn l = some [] ∨
          let h := decode e (input.1.2.buffer input.1.1)
          h.type = PktType.delayReqFollowUp.code ∧
            ∃ d, around h.seq.toNat = some d ∧
              l.around = Function.update around h.seq.toNat (some { d with sentTt := h.t2 }) ∧
              (program e cfg.measureNumber).resultsOn l = (l.around 0).map fun d => fprintfLu d.delay) := by
  obtain ⟨protocol, number, port⟩ := cfg
  obtain rfl : number = 0 := measureNumber_of_omitted accepted omitted
  cases inputs with
  | nil => exact absurd rfl received
  | cons input inputs =>
    obtain ⟨-, u, turned, rest⟩ := run
    obtain ⟨stopped, file⟩ := turnOn_first turned
    cases inputs with
    | nil =>
      obtain rfl : u = l := rest
      refine ⟨input, rfl, stopped, fun left => ?_⟩
      rcases file left with none | ⟨one, type, d, there, kept⟩
      · exact Or.inl (resultsOn_of_zero rfl none)
      · refine Or.inr ⟨type, d, there, kept, ?_⟩
        change (program e 0).resultsOn u = _
        exact resultsOn_of_one rfl rfl one
    | cons input' inputs =>
      obtain ⟨-, v, turned', -⟩ := rest
      exact absurd (turnOn_cases turned').1 stopped

/-- DELAY_REQ_FOLLOW_UP 0 comes first, and `calloc` has left one place free. -/
theorem number_omitted_udp : ∃ cfg l,
    parseOptions [['-', 'u']] = some cfg ∧
      Transition.Run (Role.slave.turnOn .little cfg.measureNumber) Transition.Any
        ((program .little cfg.measureNumber).enterOn 1 fun i => if i = 0 then some ⟨0, 0⟩ else none)
        [(arrival (Role.master.followUpHeader 0 0 5) ⟨0, 0⟩, ⟨0, 0⟩)] l ∧
      l.loop.status = .left ∧ (program .little cfg.measureNumber).resultsOn l = some "18446744073709551611\n".toList ∧
        (program .little cfg.measureNumber).resultsOn l = (l.around 0).map fun d => fprintfLu d.delay := by
  have omitted : ∀ value, .arg 'n' value ∉ optstring.getopt [['-', 'u']] := by
    intro value
    rw [getopt_of_spells rfl (spells_flag rfl .nil)]
    simp
  obtain ⟨l, run, seen⟩ := Transition.run_of_exec (Role.slave.turnOn .little 0) Transition.Any
    ((program .little 0).enterOn 1 fun i => if i = 0 then some ⟨0, 0⟩ else none)
    [(arrival (Role.master.followUpHeader 0 0 5) ⟨0, 0⟩, ⟨0, 0⟩)]
    (fun l => (l.loop.status, (program .little 0).resultsOn l)) (.left, some "18446744073709551611\n".toList)
    (by decide +kernel)
  obtain ⟨left, written⟩ := Prod.mk.inj seen
  refine ⟨⟨.udp, 0, 9337⟩, l, rfl, run, left, written, ?_⟩
  obtain ⟨input, -, -, file⟩ :=
    number_omitted _ ⟨.udp, 0, 9337⟩ rfl omitted .little 1 _ _ l run (List.cons_ne_nil _ _)
  rcases file left with empty | ⟨-, d, -, -, line⟩
  · cases written.symm.trans empty
  · exact line

end Slave

namespace Rx

def settings (opts : List Opt) : Configuration where
  cfgIoctl := last 'i' opts
  cfgPort := (last 'p' opts).elim 9000 atoiPort
  cfgProtocol := ((last 'P' opts).bind getProtcol).getD .udp
  cfgMaxPackets := (last 'n' opts).elim 0 Text.atoi

/-- Not `--ext`, which is declared, nor a protocol other than UDP and TCP. -/
def handled : Opt → Prop
  | .flag _ => False
  | .arg c value => c ∈ ['i', 'p', 'n'] ∨ c = 'P' ∧ (getProtcol value).isSome
  | .bad => False

theorem apply_settings (opts : List Opt) (o : Opt) (cfg : Configuration) :
    (settings opts).apply o = some cfg ↔ handled o ∧ cfg = settings (opts ++ [o]) := by
  unfold Configuration.apply
  split
  · simp [handled, settings, @eq_comm _ cfg]
  · simp [handled, settings, @eq_comm _ cfg]
  · rename_i value
    cases protocol : getProtcol value <;> simp [handled, settings, protocol, @eq_comm _ cfg]
  · simp [handled, settings, @eq_comm _ cfg]
  · rename_i i p P n
    simp only [reduceCtorEq, false_iff, not_and]
    intro known
    cases o with
    | flag c => exact known.elim
    | arg c value =>
      simp only [handled, List.mem_cons, List.not_mem_nil, or_false] at known
      rcases known with (rfl | rfl | rfl) | ⟨rfl, -⟩ <;> simp at i p P n
    | bad => exact known.elim

theorem parseOptions_eq_some_iff (args : List Text) (cfg : Configuration) :
    parseOptions args = some cfg ↔
      ∃ opts, Spells optstring args opts ∧ (∀ o ∈ opts, handled o) ∧ cfg = settings opts :=
  parse_eq_some_iff rfl not_false apply_settings args cfg

end Rx

namespace RefSender

variable (ifNametoindex : Text → BitVec 32)

def settings (opts : List Opt) : Configuration where
  cfgIface := (last 'i' opts).getD "eth0".toList
  cfgIfidx := (last 'i' opts).elim 0 ifNametoindex
  cfgDport := (last 'p' opts).elim 1337 atoiPort
  cfgMaxPackets := (last 'n' opts).elim 0 Text.atoi

/-- Not the protocol, which is declared, nor an interface that the host does not have. -/
def handled : Opt → Prop
  | .flag _ => False
  | .arg c value => c ∈ ['p', 'n'] ∨ c = 'i' ∧ ifNametoindex value ≠ 0
  | .bad => False

theorem apply_settings (opts : List Opt) (o : Opt) (cfg : Configuration) :
    (settings ifNametoindex opts).apply ifNametoindex o = some cfg ↔
      handled ifNametoindex o ∧ cfg = settings ifNametoindex (opts ++ [o]) := by
  unfold Configuration.apply
  split
  · rename_i value
    by_cases unknown : ifNametoindex value = 0 <;> simp [handled, settings, unknown, @eq_comm _ cfg]
  · simp [handled, settings, @eq_comm _ cfg]
  · simp [handled, settings, @eq_comm _ cfg]
  · rename_i i p n
    simp only [reduceCtorEq, false_iff, not_and]
    intro known
    cases o with
    | flag c => exact known.elim
    | arg c value =>
      simp only [handled, List.mem_cons, List.not_mem_nil, or_false] at known
      rcases known with (rfl | rfl) | ⟨rfl, -⟩ <;> simp at i p n
    | bad => exact known.elim

theorem parseOptions_eq_some_iff (args : List Text) (cfg : Configuration) :
    parseOptions ifNametoindex args = some cfg ↔
      ∃ opts, Spells optstring args opts ∧ (∀ o ∈ opts, handled ifNametoindex o) ∧ cfg = settings ifNametoindex opts :=
  parse_eq_some_iff rfl not_false (apply_settings ifNametoindex) args cfg

end RefSender

/-- Which command lines each program accepts, in whichever way they spell its options, and what they set. -/
theorem accepted_command_lines (args : List Text) :
    (∀ cfg, Master.parseOptions args = some cfg ↔
      ∃ opts, Spells Master.optstring args opts ∧ cfg = Master.settings opts) ∧
    (∀ cfg, Slave.parseOptions args = some cfg ↔
      ∃ opts, Spells Slave.optstring args opts ∧ cfg = Slave.settings opts) ∧
    (∀ cfg, Rx.parseOptions args = some cfg ↔
      ∃ opts, Spells Rx.optstring args opts ∧ (∀ o ∈ opts, Rx.handled o) ∧ cfg = Rx.settings opts) ∧
    ∀ ifNametoindex cfg, RefSender.parseOptions ifNametoindex args = some cfg ↔
      ∃ opts, Spells RefSender.optstring args opts ∧ (∀ o ∈ opts, RefSender.handled ifNametoindex o) ∧
        cfg = RefSender.settings ifNametoindex opts := by
  refine ⟨Master.parseOptions_eq_some_iff args, Slave.parseOptions_eq_some_iff args, Rx.parseOptions_eq_some_iff args, ?_⟩
  intro ifNametoindex cfg
  exact RefSender.parseOptions_eq_some_iff ifNametoindex args cfg

end Mdelay
