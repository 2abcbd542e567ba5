import Mathlib.Data.List.Basic
import Mathlib.Data.List.Induction
import Mathlib.Data.List.TakeWhile

/-!
# Command lines

The scan of GNU `getopt` and `getopt_long` over the arguments of a program, as the options it hands
out one after another. Arguments that are no options are passed over wherever they stand.
-/

namespace Getopt

abbrev Text := List Char

/-- What a call returns: an option without an argument, one with its argument, or `?`. -/
inductive Opt where
  | flag (c : Char)
  | arg (c : Char) (value : Text)
  | bad
  deriving DecidableEq

/-- An entry of `struct option`: the name, whether it requires an argument, and the option it stands for. -/
structure LongOption where
  name : Text
  takes : Bool
  val : Char
  deriving DecidableEq

/-- `takes c` says whether option `c` of the option string takes an argument, and is `none` for any other
character. `getopt` has no long options, `getopt_long` a table of them. -/
structure Spec where
  takes : Char → Option Bool
  long : Option (List LongOption)

/-- The options of one argument, and the last of them if its argument is the next argument. -/
abbrev Scan := List Opt × Option Char

/-- The options after one `-`; the rest of the argument belongs to the first that takes one. -/
def cluster (takes : Char → Option Bool) : Text → Scan
  | [] => ([], none)
  | c :: cs =>
    match takes c with
    | none => (.bad :: (cluster takes cs).1, (cluster takes cs).2)
    | some false => (.flag c :: (cluster takes cs).1, (cluster takes cs).2)
    | some true => if cs = [] then ([], some c) else ([.arg c cs], none)

/-- The entry of that name, or else the only one the name abbreviates. -/
def lookup (table : List LongOption) (name : Text) : Option LongOption :=
  match table.find? (·.name = name) with
  | some entry => some entry
  | none =>
    match table.filter fun entry => name.isPrefixOf entry.name with
    | [] => none
    | entry :: others =>
      if others.all fun other => other.takes = entry.takes ∧ other.val = entry.val then some entry else none

/-- The text after `--`: a name, and a value behind the first `=`. -/
def longOption (table : List LongOption) (text : Text) : Scan :=
  match lookup table (text.takeWhile (· ≠ '=')), text.dropWhile (· ≠ '=') with
  | none, _ => ([.bad], none)
  | some entry, [] => if entry.takes then ([], some entry.val) else ([.flag entry.val], none)
  | some entry, _ :: value => if entry.takes then ([.arg entry.val value], none) else ([.bad], none)

def Spec.argument (spec : Spec) : Text → Scan
  | '-' :: c :: cs =>
    match spec.long with
    | none => cluster spec.takes (c :: cs)
    | some table => if c = '-' then longOption table cs else cluster spec.takes (c :: cs)
  | _ => ([], none)

/-- The options a program is handed. The argument `--` ends them. -/
def Spec.getopt (spec : Spec) : List Text → List Opt
  | [] => []
  | text :: rest =>
    if text = ['-', '-'] then []
    else
      match (spec.argument text).2, rest with
      | none, rest => (spec.argument text).1 ++ spec.getopt rest
      | some _, [] => (spec.argument text).1 ++ [.bad]
      | some c, value :: rest => (spec.argument text).1 ++ .arg c value :: spec.getopt rest

/-! ### The command lines without an error -/

/-- The arguments that spell a list of options. -/
inductive Spells (spec : Spec) : List Text → List Opt → Prop
  | nil : Spells spec [] []
  | stop (rest : List Text) : Spells spec (['-', '-'] :: rest) []
  | operand {text rest opts} (plain : text = ['-'] ∨ text.head? ≠ some '-') (spells : Spells spec rest opts) :
      Spells spec (text :: rest) opts
  | flags {cs rest opts} (filled : cs ≠ []) (flags : ∀ c ∈ cs, spec.takes c = some false)
      (spells : Spells spec rest opts) : Spells spec (('-' :: cs) :: rest) (cs.map .flag ++ opts)
  | attached {cs c value rest opts} (flags : ∀ c ∈ cs, spec.takes c = some false) (takes : spec.takes c = some true)
      (filled : value ≠ []) (spells : Spells spec rest opts) :
      Spells spec (('-' :: (cs ++ c :: value)) :: rest) (cs.map .flag ++ .arg c value :: opts)
  | separate {cs c value rest opts} (flags : ∀ c ∈ cs, spec.takes c = some false) (takes : spec.takes c = some true)
      (spells : Spells spec rest opts) :
      Spells spec (('-' :: (cs ++ [c])) :: value :: rest) (cs.map .flag ++ .arg c value :: opts)
  | long {table name entry rest opts} (long : spec.long = some table) (found : lookup table name = some entry)
      (plain : '=' ∉ name) (filled : name ≠ []) (flag : entry.takes = false) (spells : Spells spec rest opts) :
      Spells spec (('-' :: '-' :: name) :: rest) (.flag entry.val :: opts)
  | longAttached {table name entry value rest opts} (long : spec.long = some table)
      (found : lookup table name = some entry) (plain : '=' ∉ name) (takes : entry.takes = true)
      (spells : Spells spec rest opts) :
      Spells spec (('-' :: '-' :: (name ++ '=' :: value)) :: rest) (.arg entry.val value :: opts)
  | longSeparate {table name entry value rest opts} (long : spec.long = some table)
      (found : lookup table name = some entry) (plain : '=' ∉ name) (filled : name ≠ []) (takes : entry.takes = true)
      (spells : Spells spec rest opts) :
      Spells spec (('-' :: '-' :: name) :: value :: rest) (.arg entry.val value :: opts)

section Cluster

variable {takes : Char → Option Bool} {cs : Text} {c : Char} {value : Text}

theorem cluster_flags (flags : ∀ c ∈ cs, takes c = some false) (rest : Text) :
    cluster takes (cs ++ rest) = (cs.map .flag ++ (cluster takes rest).1, (cluster takes rest).2) := by
  induction cs with
  | nil => rfl
  | cons c cs ih =>
    have first := flags c List.mem_cons_self
    rw [List.cons_append, cluster, first]
    simp only [ih fun c member => flags c (List.mem_cons_of_mem _ member), List.map_cons, List.cons_append]

theorem cluster_attached (flags : ∀ c ∈ cs, takes c = some false) (takesC : takes c = some true) (filled : value ≠ []) :
    cluster takes (cs ++ c :: value) = (cs.map .flag ++ [.arg c value], none) := by
  rw [cluster_flags flags, cluster, takesC]
  simp only [if_neg filled]

theorem cluster_separate (flags : ∀ c ∈ cs, takes c = some false) (takesC : takes c = some true) :
    cluster takes (cs ++ [c]) = (cs.map .flag, some c) := by
  rw [cluster_flags flags, cluster, takesC]
  simp

/-- A cluster without an error: flags, and then perhaps an option whose argument is attached or follows. -/
theorem cluster_cases {text : Text} (good : .bad ∉ (cluster takes text).1) :
    ((∀ c ∈ text, takes c = some false) ∧ cluster takes text = (text.map .flag, none)) ∨
    ∃ cs c value, text = cs ++ c :: value ∧ (∀ c ∈ cs, takes c = some false) ∧ takes c = some true := by
  induction text with
  | nil => exact Or.inl ⟨by simp, rfl⟩
  | cons c text ih =>
    rw [cluster] at good
    cases kind : takes c with
    | none => simp [kind] at good
    | some takesArg =>
      cases takesArg with
      | true => exact Or.inr ⟨[], c, text, rfl, by simp, kind⟩
      | false =>
        simp only [kind, List.mem_cons, not_or] at good
        rcases ih good.2 with ⟨flags, scanned⟩ | ⟨cs, d, value, split, flags, takesD⟩
        · refine Or.inl ⟨?_, ?_⟩
          · intro d member
            rcases List.mem_cons.mp member with same | member
            · rw [same, kind]
            · exact flags d member
          · rw [cluster, kind]
            simp [scanned]
        · refine Or.inr ⟨c :: cs, d, value, by rw [split, List.cons_append], ?_, takesD⟩
          intro e member
          rcases List.mem_cons.mp member with same | member
          · rw [same, kind]
          · exact flags e member

end Cluster

section LongOption

variable {table : List LongOption} {name value : Text} {entry : LongOption}

theorem splits_attached (plain : '=' ∉ name) (value : Text) :
    (name ++ '=' :: value).takeWhile (· ≠ '=') = name ∧ (name ++ '=' :: value).dropWhile (· ≠ '=') = '=' :: value := by
  have others : ∀ c ∈ name, decide (c ≠ '=') = true := by
    intro c member
    exact decide_eq_true fun same => plain (same ▸ member)
  rw [List.takeWhile_append_of_pos others, List.dropWhile_append_of_pos others]
  simp

theorem splits_plain (plain : '=' ∉ name) :
    name.takeWhile (· ≠ '=') = name ∧ name.dropWhile (· ≠ '=') = [] := by
  have others : ∀ c ∈ name, decide (c ≠ '=') = true := by
    intro c member
    exact decide_eq_true fun same => plain (same ▸ member)
  exact ⟨List.takeWhile_eq_self_iff.mpr others, List.dropWhile_eq_nil_iff.mpr others⟩

theorem longOption_attached (found : lookup table name = some entry) (plain : '=' ∉ name) (takes : entry.takes = true) :
    longOption table (name ++ '=' :: value) = ([.arg entry.val value], none) := by
  obtain ⟨front, back⟩ := splits_attached plain value
  rw [longOption, front, back, found]
  simp [takes]

theorem longOption_plain (found : lookup table name = some entry) (plain : '=' ∉ name) :
    longOption table name = if entry.takes then ([], some entry.val) else ([.flag entry.val], none) := by
  obtain ⟨front, back⟩ := splits_plain plain
  rw [longOption, front, back, found]

theorem longOption_cases {text : Text} (good : .bad ∉ (longOption table text).1) :
    ∃ name entry, lookup table name = some entry ∧ '=' ∉ name ∧
      (text = name ∨ ∃ value, text = name ++ '=' :: value ∧ entry.takes = true) := by
  by_cases valued : '=' ∈ text
  · obtain ⟨name, value, split, plain⟩ := List.eq_append_cons_of_mem valued
    obtain ⟨front, back⟩ := splits_attached plain value
    rw [split, longOption, front, back] at good
    cases found : lookup table name with
    | none => simp [found] at good
    | some entry =>
      refine ⟨name, entry, found, plain, Or.inr ⟨value, split, ?_⟩⟩
      by_contra flag
      simp [found, flag] at good
  · obtain ⟨front, back⟩ := splits_plain valued
    rw [longOption, front, back] at good
    cases found : lookup table text with
    | none => simp [found] at good
    | some entry => exact ⟨text, entry, found, valued, Or.inl rfl⟩

end LongOption

section Scan

variable {spec : Spec} {args : List Text} {opts : List Opt}

theorem argument_short {text : Text} (filled : text ≠ []) (short : text.head? ≠ some '-') :
    spec.argument ('-' :: text) = cluster spec.takes text := by
  cases text with
  | nil => exact absurd rfl filled
  | cons c cs =>
    have other : c ≠ '-' := fun same => short (by rw [same]; rfl)
    rw [Spec.argument]
    cases spec.long with
    | none => rfl
    | some table => simp [other]

theorem argument_long {table : List LongOption} (long : spec.long = some table) (text : Text) :
    spec.argument ('-' :: '-' :: text) = longOption table text := by
  simp [Spec.argument, long]

theorem argument_operand {text : Text} (plain : text = ['-'] ∨ text.head? ≠ some '-') :
    spec.argument text = ([], none) := by
  rcases plain with same | other
  · rw [same]
    rfl
  · cases text with
    | nil => rfl
    | cons c cs =>
      have different : c ≠ '-' := fun same => other (by rw [same]; rfl)
      unfold Spec.argument
      split
      · rename_i same
        exact absurd (List.cons.inj same).1 different
      · rfl

theorem getopt_stop (rest : List Text) : spec.getopt (['-', '-'] :: rest) = [] := by
  unfold Spec.getopt
  rw [if_pos rfl]

theorem getopt_scanned {text : Text} (going : text ≠ ['-', '-']) (scanned : spec.argument text = (opts, none))
    (rest : List Text) : spec.getopt (text :: rest) = opts ++ spec.getopt rest := by
  cases rest <;> simp [Spec.getopt, going, scanned]

theorem getopt_pending {text : Text} (going : text ≠ ['-', '-']) {c : Char} (scanned : spec.argument text = (opts, some c))
    (value : Text) (rest : List Text) :
    spec.getopt (text :: value :: rest) = opts ++ .arg c value :: spec.getopt rest := by
  simp [Spec.getopt, going, scanned]

theorem getopt_last {text : Text} (going : text ≠ ['-', '-']) {c : Char} (scanned : spec.argument text = (opts, some c)) :
    spec.getopt [text] = opts ++ [.bad] := by
  simp [Spec.getopt, going, scanned]

theorem flags_short (dash : spec.takes '-' = none) {cs : Text} (flags : ∀ c ∈ cs, spec.takes c = some false) (rest : Text)
    (next : ∀ c ∈ rest.head?, (spec.takes c).isSome = true) : (cs ++ rest).head? ≠ some '-' := by
  intro first
  cases cs with
  | nil =>
    have known := next '-' first
    simp [dash] at known
  | cons c cs =>
    have flag := flags c List.mem_cons_self
    obtain rfl : c = '-' := Option.some.inj first
    simp [dash] at flag

theorem getopt_of_spells (dash : spec.takes '-' = none) (spells : Spells spec args opts) : spec.getopt args = opts := by
  induction spells with
  | nil => rfl
  | stop rest => exact getopt_stop rest
  | @operand text rest opts plain _ ih =>
    have going : text ≠ ['-', '-'] := by
      intro same
      simp [same] at plain
    rw [getopt_scanned going (argument_operand plain), ih, List.nil_append]
  | @flags cs rest opts filled flags _ ih =>
    have short := flags_short dash flags [] (fun c none => by cases none)
    rw [List.append_nil] at short
    have scanned : spec.argument ('-' :: cs) = (cs.map .flag, none) := by
      have whole := cluster_flags flags []
      rw [List.append_nil] at whole
      rw [argument_short filled short, whole]
      simp [cluster]
    have going : '-' :: cs ≠ ['-', '-'] := by
      intro same
      rw [(List.cons.inj same).2] at short
      exact short rfl
    rw [getopt_scanned going scanned, ih]
  | @attached cs c value rest opts flags takes filled _ ih =>
    have short := flags_short dash flags (c :: value) (by simp [takes])
    have scanned : spec.argument _ = _ := argument_short (by simp) short
    rw [cluster_attached flags takes filled] at scanned
    have going : '-' :: (cs ++ c :: value) ≠ ['-', '-'] := by
      intro same
      rw [(List.cons.inj same).2] at short
      exact short rfl
    rw [getopt_scanned going scanned, ih, List.append_assoc, List.singleton_append]
  | @separate cs c value rest opts flags takes _ ih =>
    have short := flags_short dash flags [c] (by simp [takes])
    have scanned : spec.argument _ = _ := argument_short (by simp) short
    rw [cluster_separate flags takes] at scanned
    have going : '-' :: (cs ++ [c]) ≠ ['-', '-'] := by
      intro same
      rw [(List.cons.inj same).2] at short
      exact short rfl
    rw [getopt_pending going scanned, ih]
  | @long table name entry rest opts long found plain filled flag _ ih =>
    have scanned := argument_long long name
    rw [longOption_plain found plain, flag, if_neg Bool.false_ne_true] at scanned
    have going : '-' :: '-' :: name ≠ ['-', '-'] := by simpa using filled
    rw [getopt_scanned going scanned, ih, List.singleton_append]
  | @longAttached table name entry value rest opts long found plain takes _ ih =>
    have scanned := argument_long long (name ++ '=' :: value)
    rw [longOption_attached found plain takes] at scanned
    rw [getopt_scanned (by simp) scanned, ih, List.singleton_append]
  | @longSeparate table name entry value rest opts long found plain filled takes _ ih =>
    have scanned := argument_long long name
    rw [longOption_plain found plain, takes, if_pos rfl] at scanned
    have going : '-' :: '-' :: name ≠ ['-', '-'] := by simpa using filled
    rw [getopt_pending going scanned, ih, List.nil_append]

/-- One argument without an error: what it spells alone, or with the argument after it. -/
theorem argument_cases (dash : spec.takes '-' = none) {text : Text} (going : text ≠ ['-', '-']) (good : .bad ∉ (spec.argument text).1) :
    (∃ opts, spec.argument text = (opts, none) ∧
      ∀ rest more, Spells spec rest more → Spells spec (text :: rest) (opts ++ more)) ∨
    ∃ opts c, spec.argument text = (opts, some c) ∧
      ∀ value rest more, Spells spec rest more → Spells spec (text :: value :: rest) (opts ++ .arg c value :: more) := by
  have short (cs : Text) (filled : cs ≠ []) (split : text = '-' :: cs) (head : cs.head? ≠ some '-') :
      (∃ opts, spec.argument text = (opts, none) ∧
        ∀ rest more, Spells spec rest more → Spells spec (text :: rest) (opts ++ more)) ∨
      ∃ opts c, spec.argument text = (opts, some c) ∧
        ∀ value rest more, Spells spec rest more → Spells spec (text :: value :: rest) (opts ++ .arg c value :: more) := by
    subst split
    have scanned : spec.argument _ = _ := argument_short filled head
    rw [scanned] at good ⊢
    rcases cluster_cases good with ⟨flags, whole⟩ | ⟨front, c, value, rfl, flags, takes⟩
    · exact Or.inl ⟨_, whole, fun rest more spells => .flags filled flags spells⟩
    · by_cases empty : value = []
      · subst empty
        exact Or.inr ⟨_, c, cluster_separate flags takes, fun value rest more spells => .separate flags takes spells⟩
      · refine Or.inl ⟨_, cluster_attached flags takes empty, fun rest more spells => ?_⟩
        rw [List.append_assoc]
        exact .attached flags takes empty spells
  have operand (plain : text = ['-'] ∨ text.head? ≠ some '-') :
      ∃ opts, spec.argument text = (opts, none) ∧
        ∀ rest more, Spells spec rest more → Spells spec (text :: rest) (opts ++ more) :=
    ⟨[], argument_operand plain, fun rest more spells => .operand plain spells⟩
  cases text with
  | nil => exact Or.inl (operand (Or.inr (by simp)))
  | cons c cs =>
    by_cases dashed : c = '-'
    · subst dashed
      cases cs with
      | nil => exact Or.inl (operand (Or.inl rfl))
      | cons d cs =>
        by_cases again : d = '-'
        · subst again
          cases long : spec.long with
          | none =>
            have scanned : spec.argument ('-' :: '-' :: cs) = cluster spec.takes ('-' :: cs) := by
              simp [Spec.argument, long]
            rw [scanned, cluster, dash] at good
            simp at good
          | some table =>
            have scanned := argument_long long cs
            rw [scanned] at good ⊢
            have filled : cs ≠ [] := by
              intro empty
              exact going (by rw [empty])
            obtain ⟨name, entry, found, plain, split⟩ := longOption_cases good
            rcases split with rfl | ⟨value, rfl, takes⟩
            · have whole := longOption_plain found plain
              cases takes : entry.takes with
              | true =>
                rw [takes, if_pos rfl] at whole
                exact Or.inr ⟨_, _, whole, fun value rest more spells => .longSeparate long found plain filled takes spells⟩
              | false =>
                rw [takes, if_neg Bool.false_ne_true] at whole
                exact Or.inl ⟨_, whole, fun rest more spells => .long long found plain filled takes spells⟩
            · exact Or.inl ⟨_, longOption_attached found plain takes,
                fun rest more spells => .longAttached long found plain takes spells⟩
        · exact short (d :: cs) (by simp) rfl (by simpa using again)
    · exact Or.inl (operand (Or.inr (by simpa using dashed)))

theorem spells_getopt (dash : spec.takes '-' = none) (good : .bad ∉ spec.getopt args) :
    Spells spec args (spec.getopt args) := by
  induction size : args.length using Nat.strongRecOn generalizing args with
  | _ n ih =>
    cases args with
    | nil => exact .nil
    | cons text rest =>
      by_cases stop : text = ['-', '-']
      · subst stop
        rw [getopt_stop]
        exact .stop rest
      · have first : .bad ∉ (spec.argument text).1 := by
          intro member
          apply good
          unfold Spec.getopt
          rw [if_neg stop]
          split <;> simp [member]
        rcases argument_cases dash stop first with ⟨opts, scanned, spells⟩ | ⟨opts, c, scanned, spells⟩
        · rw [getopt_scanned stop scanned] at good ⊢
          rw [List.mem_append, not_or] at good
          exact spells _ _ (ih rest.length (by simp [← size]) good.2 rfl)
        · cases rest with
          | nil =>
            rw [getopt_last stop scanned] at good
            simp at good
          | cons value rest =>
            rw [getopt_pending stop scanned] at good ⊢
            simp only [List.mem_append, List.mem_cons, not_or] at good
            have shorter : rest.length < n := by
              rw [← size, List.length_cons, List.length_cons]
              omega
            exact spells _ _ _ (ih rest.length shorter good.2.2 rfl)

end Scan

/-! ### Spelling -/

section Spelling

variable {spec : Spec} {args rest : List Text} {opts : List Opt}

theorem spells_arg {c : Char} (takes : spec.takes c = some true) (value : Text) (spells : Spells spec rest opts) :
    Spells spec (['-', c] :: value :: rest) (.arg c value :: opts) := by
  have flags : ∀ c ∈ ([] : Text), spec.takes c = some false := by simp
  exact .separate flags takes spells

theorem spells_flag {c : Char} (flag : spec.takes c = some false) (spells : Spells spec rest opts) :
    Spells spec (['-', c] :: rest) (.flag c :: opts) := by
  have flags : ∀ d ∈ [c], spec.takes d = some false := by simp [flag]
  exact .flags (List.cons_ne_nil c []) flags spells

/-- The options that the option string or the table of long options has. -/
def Spec.Knows (spec : Spec) : Opt → Prop
  | .flag c => spec.takes c = some false ∨
      ∃ table ∈ spec.long, ∃ entry ∈ table, entry.takes = false ∧ entry.val = c
  | .arg c _ => spec.takes c = some true ∨
      ∃ table ∈ spec.long, ∃ entry ∈ table, entry.takes = true ∧ entry.val = c
  | .bad => False

theorem lookup_mem {table : List LongOption} {name : Text} {entry : LongOption}
    (found : lookup table name = some entry) : entry ∈ table := by
  unfold lookup at found
  split at found
  · rename_i same
    obtain rfl := Option.some.inj found
    exact List.mem_of_find?_eq_some same
  · split at found
    · cases found
    · rename_i first others split
      split at found
      · obtain rfl := Option.some.inj found
        have member : first ∈ table.filter fun entry => name.isPrefixOf entry.name := by
          rw [split]
          exact List.mem_cons_self
        exact (List.mem_filter.mp member).1
      · cases found

theorem knows_of_spells (spells : Spells spec args opts) : ∀ o ∈ opts, spec.Knows o := by
  induction spells with
  | nil | stop => simp
  | operand _ _ ih => exact ih
  | flags _ flags _ ih =>
    simp only [List.forall_mem_append, List.forall_mem_map]
    exact ⟨fun c member => Or.inl (flags c member), ih⟩
  | attached flags takes _ _ ih | separate flags takes _ ih =>
    simp only [List.forall_mem_append, List.forall_mem_map, List.forall_mem_cons]
    exact ⟨fun c member => Or.inl (flags c member), Or.inl takes, ih⟩
  | long long found _ _ flag _ ih =>
    exact List.forall_mem_cons.mpr ⟨Or.inr ⟨_, long, _, lookup_mem found, flag, rfl⟩, ih⟩
  | longAttached long found _ takes _ ih | longSeparate long found _ _ takes _ ih =>
    exact List.forall_mem_cons.mpr ⟨Or.inr ⟨_, long, _, lookup_mem found, takes, rfl⟩, ih⟩

end Spelling

/-! ### Programs that act on their options -/

/-- The value of the last option `c`. -/
def last (c : Char) (opts : List Opt) : Option Text :=
  opts.foldl (fun found o =>
    match o with
    | .arg d value => if d = c then some value else found
    | _ => found) none

@[simp] theorem last_nil (c : Char) : last c [] = none := rfl

theorem last_snoc (c : Char) (opts : List Opt) (o : Opt) :
    last c (opts ++ [o]) =
      match o with
      | .arg d value => if d = c then some value else last c opts
      | _ => last c opts := by
  rw [last, List.foldl_append]
  rfl

@[simp] theorem last_snoc_arg (c d : Char) (value : Text) (opts : List Opt) :
    last c (opts ++ [.arg d value]) = if d = c then some value else last c opts := last_snoc c opts _

@[simp] theorem last_snoc_flag (c d : Char) (opts : List Opt) : last c (opts ++ [.flag d]) = last c opts :=
  last_snoc c opts _

theorem last_eq_none_iff {c : Char} {opts : List Opt} : last c opts = none ↔ ∀ value, .arg c value ∉ opts := by
  induction opts using List.reverseRecOn with
  | nil => simp
  | append_singleton opts o ih =>
    cases o with
    | flag d => simp [ih]
    | arg d value =>
      rw [last_snoc_arg]
      by_cases same : d = c
      · subst same
        rw [if_pos rfl]
        exact iff_of_false (Option.some_ne_none value) fun none => none value (by simp)
      · have other : ¬ c = d := Ne.symm same
        simp [same, other, ih]
    | bad => simp [last_snoc, ih]

variable {κ : Type*}

/-- A program acts on one option after another; `none` when it exits. -/
def parse (spec : Spec) (apply : κ → Opt → Option κ) (initial : κ) (args : List Text) : Option κ :=
  (spec.getopt args).foldlM apply initial

/-- What the options set, where each option sets what the list up to it sets. -/
theorem foldlM_settings {apply : κ → Opt → Option κ} {settings : List Opt → κ} {handled : Opt → Prop}
    (snoc : ∀ opts o cfg, apply (settings opts) o = some cfg ↔ handled o ∧ cfg = settings (opts ++ [o]))
    (opts : List Opt) (cfg : κ) :
    opts.foldlM apply (settings []) = some cfg ↔ (∀ o ∈ opts, handled o) ∧ cfg = settings opts := by
  induction opts using List.reverseRecOn generalizing cfg with
  | nil => simp [eq_comm]
  | append_singleton opts o ih =>
    rw [List.foldlM_append]
    simp only [bind, Option.bind_eq_some_iff, List.foldlM_cons, List.foldlM_nil, pure, ih, List.forall_mem_append,
      List.forall_mem_singleton]
    constructor
    · rintro ⟨before, ⟨all, rfl⟩, after, applied, same⟩
      obtain rfl := Option.some.inj same
      obtain ⟨own, rfl⟩ := (snoc opts o _).mp applied
      exact ⟨⟨all, own⟩, rfl⟩
    · rintro ⟨⟨all, own⟩, rfl⟩
      exact ⟨_, ⟨all, rfl⟩, _, (snoc opts o _).mpr ⟨own, rfl⟩, rfl⟩

/-- A program that exits on `?` accepts the command lines that spell options it handles. -/
theorem parse_eq_some_iff {spec : Spec} (dash : spec.takes '-' = none) {apply : κ → Opt → Option κ}
    {settings : List Opt → κ} {handled : Opt → Prop} (exits : ¬ handled .bad)
    (snoc : ∀ opts o cfg, apply (settings opts) o = some cfg ↔ handled o ∧ cfg = settings (opts ++ [o]))
    (args : List Text) (cfg : κ) :
    parse spec apply (settings []) args = some cfg ↔
      ∃ opts, Spells spec args opts ∧ (∀ o ∈ opts, handled o) ∧ cfg = settings opts := by
  rw [parse, foldlM_settings snoc]
  constructor
  · rintro ⟨all, same⟩
    exact ⟨_, spells_getopt dash fun member => exits (all _ member), all, same⟩
  · rintro ⟨opts, spells, all, same⟩
    rw [getopt_of_spells dash spells]
    exact ⟨all, same⟩

/-- A program that handles every option it declares accepts the command lines that spell options. -/
theorem parse_eq_some_iff_spells {spec : Spec} (dash : spec.takes '-' = none) {apply : κ → Opt → Option κ}
    {settings : List Opt → κ} {handled : Opt → Prop} (exits : ¬ handled .bad)
    (snoc : ∀ opts o cfg, apply (settings opts) o = some cfg ↔ handled o ∧ cfg = settings (opts ++ [o]))
    (complete : ∀ o, spec.Knows o → handled o) (args : List Text) (cfg : κ) :
    parse spec apply (settings []) args = some cfg ↔ ∃ opts, Spells spec args opts ∧ cfg = settings opts := by
  refine (parse_eq_some_iff dash exits snoc args cfg).trans ?_
  refine exists_congr fun opts => and_congr_right fun spells => and_iff_right ?_
  exact fun o member => complete o (knows_of_spells spells o member)

end Getopt
