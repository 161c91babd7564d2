import Intent.Library.Run
import Intent.Old.Interp
import Intent.Old.NormalizeIdentifier
import Mathlib.Data.List.Induction
import Mathlib.Data.List.MinMax

/-!
# The help of a command line

`core/cli/cmdline.cpp`: flags and parameters are defined by calls, each with a list of names, and
`get_help` lists them in a column. A C string is the text in front of its NUL, or `none` if it is
null. Sources, arguments and validators have no part in it.

A column has room for 30 bytes. `cmdline_aligned_iff` says that the list is aligned if the names of
every item fit into it, and no name has a line feed, for a column begins again behind one. What is
too wide makes the help undefined.
-/

namespace Intent.Old

/-! ### Definitions -/

namespace Cli

/-- `cmdline_flag`. -/
structure CmdlineFlag where
  names : List Text
  help : Text
  deriving DecidableEq, Repr

/-- `cmdline_param`. -/
structure CmdlineParam where
  names : List Text
  help : Text
  occurrenceRule : UInt8
  placeholder : Text
  deriving DecidableEq, Repr

/-- `lifecycle_phase`. -/
inductive LifecyclePhase where
  | definition
  | validation
  | usage
  deriving DecidableEq, Repr

/-- `cmdline`. -/
structure Cmdline where
  phase : LifecyclePhase
  programName : Text
  description : Text
  epilog : Text
  params : List CmdlineParam
  flags : List CmdlineFlag
  deriving DecidableEq, Repr

/-- The loop of `split_impl`, with the piece that `begin` points to. -/
def splitFrom (splitters : Text) : Option Text → Text → List Text
  | piece, [] => piece.toList
  | piece, c :: s =>
    if strchr splitters c then piece.toList ++ splitFrom splitters none s
    else splitFrom splitters (some (piece.getD [] ++ [c])) s

/-- `split`. -/
def split (txt : Option Text) (splitters : Text) : List Text :=
  splitFrom splitters none (txt.getD [])

/-- `get_name_after_prefix`. -/
def getNameAfterPrefix (name : Text) : Text := name.dropWhile (· == ch '-')

/-- The loop of `generate_placeholder`: the smallest name, but of 3 characters at least. -/
def bestName : Option Text → List Text → Option Text
  | best, [] => best
  | none, name :: names => bestName (some (getNameAfterPrefix name)) names
  | some best, name :: names =>
    let next := getNameAfterPrefix name
    let choose := (best.length < 3 ∧ next.length ≥ 3) ∨ best.length > next.length
    bestName (some (if choose then next else best)) names

/-- `generate_placeholder`; a single name is the best one. -/
def generatePlaceholder (names : List Text) : Text :=
  (((bestName none names).getD []).filter isalnum).map asciiToUpperCase

/-- `is_positional`. -/
def isPositional (names : List Text) : Bool :=
  names.length == 1 && (names.head?.bind List.head?) != some (ch '-')

namespace Cmdline

variable (c : Cmdline)

/-- The constructor. -/
def initial : Cmdline := ⟨.definition, [], [], [], [], []⟩

/-- `define_param`; `none` is the exception of a precondition. -/
def defineParam (names help : Option Text) (occurrenceRule : UInt8) (placeholder : Option Text) :
    Option Cmdline :=
  let split := split names (bytes [',', ' '])
  if c.phase = .definition ∧ names.getD [] ≠ [] ∧ help.getD [] ≠ [] ∧
      strchr (bytes ['?', '*', '1', '+', '2', '3', '4', '5', '6', '7', '8', '9']) occurrenceRule ∧
      ∀ name ∈ split.tail, (name.head? != some (ch '-')) = isPositional split then
    some { c with
      params := c.params ++ [⟨split, help.getD [], occurrenceRule,
        placeholder.getD (generatePlaceholder split)⟩] }
  else none

/-- `define_flag`; its `help` is not tested, and cannot be null. -/
def defineFlag (names : Option Text) (help : Text) : Option Cmdline :=
  if c.phase = .definition then
    some { c with flags := c.flags ++ [⟨split names (bytes [',', ' ']), help⟩] }
  else none

/-- `set_program_name`. -/
def setProgramName (name : Text) : Option Cmdline :=
  if c.phase = .definition then some { c with programName := name } else none

/-- `set_description`. -/
def setDescription (descrip : Text) : Option Cmdline :=
  if c.phase = .definition then some { c with description := descrip } else none

/-- `set_epilog`. -/
def setEpilog (epilog : Text) : Option Cmdline :=
  if c.phase = .definition then some { c with epilog := epilog } else none

/-- `validate`, which goes through its own phase. -/
def validate : Option Cmdline :=
  if c.phase = .definition then some { c with phase := .usage } else none

end Cmdline

/-! ### The help -/

/-- The body of `_get_max_name_width` for one item. -/
def nameWidthOf (names : List Text) : ℕ :=
  names.foldl (fun n name => (if n ≠ 0 then n + 2 else n) + name.length) 0

/-- `_get_max_name_width`. -/
def maxNameWidthOf (items : List (List Text)) : ℕ :=
  items.foldl (fun biggest names =>
    if nameWidthOf names > biggest then nameWidthOf names else biggest) 0

/-- The loop of `dump_items` over the names: what it writes, and `my_name_width`. -/
def dumpNames : Bool → List Text → Text × ℕ
  | _, [] => ([], 0)
  | delim, name :: names =>
    let rest := dumpNames true names
    ((if delim then bytes [',', ' '] else []) ++ name ++ rest.1,
      (if delim then 2 else 0) + name.length + rest.2)

/-- `my_name_width`. -/
def myNameWidth (names : List Text) : ℕ := (dumpNames false names).2

/-- The offset into `EIGHTY_SPACES`, a `size_t`. -/
def paddingOffset (nameWidth : ℕ) (names : List Text) : UInt64 :=
  80 - (UInt64.ofNat nameWidth - UInt64.ofNat (myNameWidth names))

/-- The string at an offset of `EIGHTY_SPACES`; beyond its end there is none. -/
def eightySpaces (offset : UInt64) : Option Text :=
  if offset ≤ 80 then some (List.replicate (80 - offset.toNat) (ch ' ')) else none

/-- What `dump_items` writes in front of the help of an item. -/
def itemHead (nameWidth : ℕ) (names : List Text) : Option Text :=
  (eightySpaces (paddingOffset nameWidth names)).map fun padding =>
    List.replicate 4 (ch ' ') ++ (dumpNames false names).1 ++ padding ++ List.replicate 4 (ch ' ')

/-- `dump_items`, for names and helps. -/
def dumpItems (items : List (List Text × Text)) (label : Text) (nameWidth : ℕ) : Option Text :=
  if items = [] then some []
  else
    (items.mapM fun item => (itemHead nameWidth item.1).map (· ++ item.2 ++ [ch '\n'])).map
      fun lines => [ch '\n'] ++ label ++ [ch '\n'] ++ lines.flatten

/-- `get_usage_for_param`; `none` if `names[0]` does not exist. -/
def getUsageForParam (param : CmdlineParam) : Option Text :=
  param.names.head?.map fun name =>
    let occurrence := name ++ if isPositional param.names then [] else ch '=' :: param.placeholder
    if param.occurrenceRule = ch '*' then
      [ch '['] ++ occurrence ++ bytes ['.', '.', '.', ']']
    else if param.occurrenceRule = ch '?' then [ch '['] ++ occurrence ++ [ch ']']
    else if param.occurrenceRule = ch '+' then
      occurrence ++ bytes [' ', '['] ++ occurrence ++ bytes ['.', '.', '.', ']']
    else if param.occurrenceRule = ch '1' then occurrence
    else if param.occurrenceRule = ch '2' then
      occurrence ++ bytes ['1', ' '] ++ occurrence ++ [ch '2']
    else occurrence ++ bytes ['1', '.', '.', '.'] ++ occurrence ++ [param.occurrenceRule]

namespace Cmdline

variable (c : Cmdline)

/-- The names of all items. -/
def itemNames : List (List Text) := c.flags.map (·.names) ++ c.params.map (·.names)

/-- `get_max_name_width`. -/
def getMaxNameWidth : ℕ :=
  max (maxNameWidthOf (c.flags.map (·.names))) (maxNameWidthOf (c.params.map (·.names)))

/-- `name_width`. -/
def nameWidth : ℕ := min (max 10 c.getMaxNameWidth) 30

/-- The program name and the description. -/
def title : Text :=
  let n := if c.programName = [] then 0 else 1
  let text := c.programName ++
    if c.description = [] then [] else (if n = 0 then [] else bytes [':', ' ']) ++ c.description
  text ++ if n = 0 ∧ c.description = [] then [] else bytes ['\n', '\n']

/-- The usage, which begins with the program name. -/
def usage : Option Text := do
  let flags ← c.flags.mapM fun flag => flag.names.head?.map ([ch '['] ++ · ++ [ch ']'])
  let params ← c.params.mapM getUsageForParam
  let parts := (if c.programName = [] then [] else [c.programName]) ++ flags ++ params
  some ([ch ' '].intercalate parts ++ if parts = [] then [] else [ch '\n'])

/-- `get_help`; `none` if its precondition does not hold, or it reads outside of a string or of the
names of an item. -/
def getHelp : Option Text :=
  if c.phase = .usage then do
    let usage ← c.usage
    let flags ← dumpItems (c.flags.map fun flag => (flag.names, flag.help))
      (bytes ['f', 'l', 'a', 'g', 's']) c.nameWidth
    let params ← dumpItems (c.params.map fun param => (param.names, param.help))
      (bytes ['o', 'p', 't', 'i', 'o', 'n', 's']) c.nameWidth
    some (c.title ++ usage ++ flags ++ params ++ if c.epilog = [] then [] else ch '\n' :: c.epilog)
  else none

end Cmdline

/-! ### Widths -/

section Widths

variable {names : List Text} {items : List (List Text)} {n : ℕ}

/-- No piece is empty. -/
theorem ne_nil_of_mem_splitFrom {splitters txt : Text} {piece : Option Text}
    (hpiece : piece ≠ some []) {w : Text} (h : w ∈ splitFrom splitters piece txt) : w ≠ [] := by
  induction txt generalizing piece with
  | nil =>
    rw [splitFrom, Option.mem_toList] at h
    rintro rfl
    exact hpiece h
  | cons c s ih =>
    rw [splitFrom] at h
    split_ifs at h with hc
    · rcases List.mem_append.mp h with hmem | hmem
      · rw [Option.mem_toList] at hmem
        rintro rfl
        exact hpiece hmem
      · exact ih (fun h => by cases h) hmem
    · refine ih (fun h => ?_) h
      exact List.append_ne_nil_of_right_ne_nil _ (List.cons_ne_nil c []) (Option.some.inj h)

theorem dumpNames_true (names : List Text) :
    (dumpNames true names).1 = names.flatMap (bytes [',', ' '] ++ ·) := by
  induction names with
  | nil => rfl
  | cons name names ih =>
    rw [dumpNames, ih, List.flatMap_cons]
    rfl

/-- The names are joined by commas. -/
theorem dumpNames_false (names : List Text) :
    (dumpNames false names).1 = (bytes [',', ' ']).intercalate names := by
  cases names with
  | nil => rfl
  | cons name names =>
    have hfirst : (dumpNames false (name :: names)).1 =
        name ++ names.flatMap (bytes [',', ' '] ++ ·) := by
      rw [← dumpNames_true]
      rfl
    rw [hfirst]
    clear hfirst
    induction names generalizing name with
    | nil =>
      rw [List.intercalate_singleton]
      exact List.append_nil _
    | cons next names ih =>
      rw [List.intercalate_cons_cons, ← ih, List.flatMap_cons]
      simp only [List.append_assoc]

theorem dumpNames_length (delim : Bool) (names : List Text) :
    (dumpNames delim names).2 = (dumpNames delim names).1.length := by
  induction names generalizing delim with
  | nil => rfl
  | cons name names ih =>
    rw [dumpNames]
    simp only [List.length_append, ih true]
    cases delim <;> rfl

theorem myNameWidth_eq (names : List Text) :
    myNameWidth names = ((bytes [',', ' ']).intercalate names).length := by
  rw [myNameWidth, dumpNames_length, dumpNames_false]

theorem foldl_width (hn : n ≠ 0) (names : List Text) :
    names.foldl (fun n name => (if n ≠ 0 then n + 2 else n) + name.length) n =
      n + (dumpNames true names).2 := by
  induction names generalizing n with
  | nil => rfl
  | cons name names ih =>
    rw [List.foldl_cons, if_pos hn, ih (by omega), dumpNames]
    simp only [if_true]
    omega

/-- **The two computations of a width agree**, since no name is empty. -/
theorem nameWidthOf_eq (hnames : ∀ name ∈ names, name ≠ []) :
    nameWidthOf names = myNameWidth names := by
  cases names with
  | nil => rfl
  | cons name names =>
    have hpos : name.length ≠ 0 := fun h =>
      hnames name List.mem_cons_self (List.length_eq_zero_iff.mp h)
    have hzero : (if (0 : ℕ) ≠ 0 then 0 + 2 else 0) + name.length = name.length := Nat.zero_add _
    rw [nameWidthOf, List.foldl_cons, hzero, foldl_width hpos, myNameWidth, dumpNames]
    exact congrArg (· + (dumpNames true names).2) (Nat.zero_add _).symm

theorem le_foldl_max (items : List (List Text)) (n : ℕ) :
    n ≤ items.foldl (fun biggest names =>
      if nameWidthOf names > biggest then nameWidthOf names else biggest) n ∧
    ∀ names ∈ items, nameWidthOf names ≤ items.foldl (fun biggest names =>
      if nameWidthOf names > biggest then nameWidthOf names else biggest) n := by
  induction items generalizing n with
  | nil => exact ⟨le_rfl, List.forall_mem_nil _⟩
  | cons names items ih =>
    rw [List.foldl_cons]
    obtain ⟨hstart, hitems⟩ := ih (if nameWidthOf names > n then nameWidthOf names else n)
    refine ⟨le_trans ?_ hstart, List.forall_mem_cons.mpr ⟨le_trans ?_ hstart, hitems⟩⟩
    · split_ifs <;> omega
    · split_ifs <;> omega

theorem le_maxNameWidthOf (h : names ∈ items) : nameWidthOf names ≤ maxNameWidthOf items :=
  (le_foldl_max items 0).2 names h

/-- The offset for an item that fits into the column. -/
theorem paddingOffset_toNat {nameWidth : ℕ} (hle : myNameWidth names ≤ nameWidth)
    (hwidth : nameWidth ≤ 80) :
    (paddingOffset nameWidth names).toNat = 80 - (nameWidth - myNameWidth names) := by
  have heq : paddingOffset nameWidth names =
      UInt64.ofNat (80 - (nameWidth - myNameWidth names)) := by
    rw [UInt64.ofNat_sub ((Nat.sub_le _ _).trans hwidth), UInt64.ofNat_sub hle]
    rfl
  rw [heq]
  exact UInt64.toNat_ofNat_of_lt' (lt_of_le_of_lt (Nat.sub_le _ _) (by decide))

/-- An item that fits into the column is filled up to it. -/
theorem itemHead_of_le {nameWidth : ℕ} (hle : myNameWidth names ≤ nameWidth)
    (hwidth : nameWidth ≤ 80) :
    paddingOffset nameWidth names ≤ 80 ∧ itemHead nameWidth names =
      some (List.replicate 4 (ch ' ') ++ (bytes [',', ' ']).intercalate names ++
        List.replicate (nameWidth - myNameWidth names) (ch ' ') ++
        List.replicate 4 (ch ' ')) := by
  have hoffset := paddingOffset_toNat hle hwidth
  have hbound : paddingOffset nameWidth names ≤ 80 := by
    rw [UInt64.le_iff_toNat_le, hoffset]
    exact Nat.sub_le _ _
  have hpadding : 80 - (paddingOffset nameWidth names).toNat = nameWidth - myNameWidth names := by
    omega
  refine ⟨hbound, ?_⟩
  rw [itemHead, eightySpaces, if_pos hbound, Option.map_some, hpadding, dumpNames_false]

end Widths

/-! ### The list of the items -/

section Items

variable {α β : Type}

theorem isSome_mapM_iff (f : α → Option β) (l : List α) :
    (l.mapM f).isSome = true ↔ ∀ x ∈ l, (f x).isSome = true := by
  induction l with
  | nil => exact iff_of_true rfl (List.forall_mem_nil _)
  | cons x l ih =>
    rw [List.forall_mem_cons, ← ih, ← Bool.and_eq_true, Bool.coe_iff_coe, List.mapM_cons]
    cases f x with
    | none => rfl
    | some y =>
      cases l.mapM f with
      | none => rfl
      | some ys => rfl

theorem isSome_dumpItems_iff (items : List (List Text × Text)) (label : Text) (nameWidth : ℕ) :
    (dumpItems items label nameWidth).isSome = true ↔
      ∀ names ∈ items.map Prod.fst, (itemHead nameWidth names).isSome = true := by
  rw [List.forall_mem_map, dumpItems]
  split_ifs with hnil
  · subst hnil
    exact iff_of_true rfl (List.forall_mem_nil _)
  · rw [Option.isSome_map, isSome_mapM_iff]
    exact forall₂_congr fun item _ => by rw [Option.isSome_map]

end Items

namespace Cmdline

variable {c : Cmdline}

/-- The names of an item, joined by commas. -/
def joined (names : List Text) : Text := (bytes [',', ' ']).intercalate names

/-- The column behind a text that begins a line, in bytes. -/
def lineColumn (text : Text) : ℕ := (text.reverse.takeWhile (· ≠ ch '\n')).length

/-- The bytes of the names up to the last line feed. -/
def lastBreak (names : List Text) : ℕ := (joined names).length - lineColumn (joined names)

/-- The help of a command line is defined, and aligned: no item is wider than the column, the offset
of every item is within the spaces, and there is a column in which every help begins. -/
structure Aligned (c : Cmdline) : Prop where
  help : c.getHelp.isSome = true
  offset : ∀ names ∈ c.itemNames,
    myNameWidth names ≤ c.nameWidth ∧ paddingOffset c.nameWidth names ≤ 80
  column : ∃ column, ∀ names ∈ c.itemNames, ∃ head,
    itemHead c.nameWidth names = some head ∧ lineColumn head = column

/-- No name is empty. -/
def WellNamed (c : Cmdline) : Prop := ∀ names ∈ c.itemNames, ∀ name ∈ names, name ≠ []

theorem nameWidth_le (c : Cmdline) : c.nameWidth ≤ 30 := Nat.min_le_right _ _

/-- An item is as wide as the column at most, unless it is wider than 30. -/
theorem myNameWidth_le (hnames : c.WellNamed) {names : List Text} (h : names ∈ c.itemNames)
    (hle : myNameWidth names ≤ 30) : myNameWidth names ≤ c.nameWidth := by
  have hmax : nameWidthOf names ≤ c.getMaxNameWidth := by
    rcases List.mem_append.mp h with hflag | hparam
    · exact (le_maxNameWidthOf hflag).trans (Nat.le_max_left _ _)
    · exact (le_maxNameWidthOf hparam).trans (Nat.le_max_right _ _)
  rw [nameWidthOf_eq (hnames names h)] at hmax
  exact Nat.le_min.mpr ⟨hmax.trans (Nat.le_max_right _ _), hle⟩

theorem isSome_head?_iff (names : List Text) : names.head?.isSome = true ↔ names ≠ [] := by
  cases names with
  | nil => exact iff_of_false Bool.false_ne_true (not_not_intro rfl)
  | cons name names => exact iff_of_true rfl (List.cons_ne_nil _ _)

/-- The usage needs a name of every item. -/
theorem isSome_usage_iff (c : Cmdline) :
    c.usage.isSome = true ↔ ∀ names ∈ c.itemNames, names ≠ [] := by
  have hand : c.usage.isSome =
      ((c.flags.mapM fun flag : CmdlineFlag =>
          flag.names.head?.map ([ch '['] ++ · ++ [ch ']'])).isSome &&
        (c.params.mapM getUsageForParam).isSome) := by
    rw [usage]
    cases c.flags.mapM (fun flag : CmdlineFlag =>
      flag.names.head?.map ([ch '['] ++ · ++ [ch ']'])) with
    | none => rfl
    | some flags =>
      cases c.params.mapM getUsageForParam with
      | none => rfl
      | some params => rfl
  rw [hand, Bool.and_eq_true, isSome_mapM_iff, isSome_mapM_iff, itemNames, List.forall_mem_append,
    List.forall_mem_map, List.forall_mem_map]
  refine and_congr (forall₂_congr fun flag _ => ?_) (forall₂_congr fun param _ => ?_)
  · rw [Option.isSome_map, isSome_head?_iff]
  · rw [getUsageForParam, Option.isSome_map, isSome_head?_iff]

/-- The help is defined if the usage and all items are. -/
theorem isSome_getHelp_iff (hphase : c.phase = .usage) :
    c.getHelp.isSome = true ↔ (∀ names ∈ c.itemNames, names ≠ []) ∧
      ∀ names ∈ c.itemNames, (itemHead c.nameWidth names).isSome = true := by
  have hflags := isSome_dumpItems_iff (c.flags.map fun flag => (flag.names, flag.help))
    (bytes ['f', 'l', 'a', 'g', 's']) c.nameWidth
  have hparams := isSome_dumpItems_iff (c.params.map fun param => (param.names, param.help))
    (bytes ['o', 'p', 't', 'i', 'o', 'n', 's']) c.nameWidth
  rw [List.map_map] at hflags hparams
  rw [← isSome_usage_iff, getHelp, if_pos hphase]
  conv_rhs => rw [itemNames]
  rw [List.forall_mem_append]
  refine Iff.trans ?_ (and_congr Iff.rfl (and_congr hflags hparams))
  rw [← Bool.and_eq_true, ← Bool.and_eq_true, Bool.coe_iff_coe]
  cases c.usage with
  | none => rfl
  | some usage =>
    cases dumpItems (c.flags.map fun flag => (flag.names, flag.help))
      (bytes ['f', 'l', 'a', 'g', 's']) c.nameWidth with
    | none => rfl
    | some flags =>
      cases dumpItems (c.params.map fun param => (param.names, param.help))
        (bytes ['o', 'p', 't', 'i', 'o', 'n', 's']) c.nameWidth with
      | none => rfl
      | some params => rfl

/-! ### Columns -/

section Columns

variable {text : Text} {names : List Text}

theorem lineColumn_le (text : Text) : lineColumn text ≤ text.length := by
  rw [lineColumn, ← @List.length_reverse _ text]
  exact (List.takeWhile_sublist _).length_le

/-- Behind a text, without a line feed. -/
theorem lineColumn_append {rest : Text} (hrest : ∀ c ∈ rest, c ≠ ch '\n') :
    lineColumn (text ++ rest) = lineColumn text + rest.length := by
  rw [lineColumn, List.reverse_append, List.takeWhile_append_of_pos, List.length_append,
    List.length_reverse, Nat.add_comm]
  · rfl
  · exact fun c hc => decide_eq_true (hrest c (List.mem_reverse.mp hc))

/-- In front of a text, only the column of a single line changes. -/
theorem lineColumn_prepend (front : Text) (hfront : ∀ c ∈ front, c ≠ ch '\n') :
    lineColumn (front ++ text) =
      if lineColumn text = text.length then front.length + text.length else lineColumn text := by
  have hall : front.reverse.takeWhile (· ≠ ch '\n') = front.reverse :=
    List.takeWhile_eq_self_iff.mpr fun c hc => decide_eq_true (hfront c (List.mem_reverse.mp hc))
  rw [lineColumn, List.reverse_append, List.takeWhile_append, hall, List.length_reverse]
  split_ifs with hsingle hline
  · rw [List.length_append, List.length_reverse, List.length_reverse, Nat.add_comm]
  · exact absurd hsingle hline
  · exact absurd ‹_› hsingle
  · rfl

/-- The column of an item that fits. -/
theorem lineColumn_itemHead {nameWidth : ℕ} (hle : myNameWidth names ≤ nameWidth)
    (hwidth : nameWidth ≤ 80) : ∃ head, itemHead nameWidth names = some head ∧
      lineColumn head + lastBreak names + (if lastBreak names = 0 then 0 else 4) =
        nameWidth + 8 := by
  have hblank : ∀ n, ∀ c ∈ List.replicate n (ch ' '), c ≠ ch '\n' := by
    intro n c hc
    rw [List.eq_of_mem_replicate hc]
    decide
  have hlen := myNameWidth_eq names
  have hline := lineColumn_le (joined names)
  refine ⟨_, (itemHead_of_le hle hwidth).2, ?_⟩
  rw [lineColumn_append (hblank 4), lineColumn_append (hblank _), ← joined,
    lineColumn_prepend _ (hblank 4), List.length_replicate, List.length_replicate, lastBreak]
  rw [← joined] at hlen
  split_ifs <;> omega

end Columns

/-- **Alignment**, for names that are not empty. -/
theorem aligned_iff (hphase : c.phase = .usage) (hnames : c.WellNamed) :
    c.Aligned ↔ (∀ names ∈ c.itemNames, names ≠ [] ∧ (joined names).length ≤ 30) ∧
      ∀ names ∈ c.itemNames, ∀ names' ∈ c.itemNames, lastBreak names = lastBreak names' := by
  have hwide : c.nameWidth ≤ 80 := c.nameWidth_le.trans (by decide)
  constructor
  · intro h
    obtain ⟨column, hcolumn⟩ := h.column
    have hbreak : ∀ names ∈ c.itemNames,
        column + lastBreak names + (if lastBreak names = 0 then 0 else 4) = c.nameWidth + 8 := by
      intro names hmem
      obtain ⟨head, hhead, hline⟩ := lineColumn_itemHead (h.offset names hmem).1 hwide
      obtain ⟨head', hhead', rfl⟩ := hcolumn names hmem
      rwa [Option.some.inj (hhead'.symm.trans hhead)]
    refine ⟨fun names hmem => ⟨((isSome_getHelp_iff hphase).mp h.help).1 names hmem, ?_⟩,
      fun names hmem names' hmem' => ?_⟩
    · rw [joined, ← myNameWidth_eq]
      exact (h.offset names hmem).1.trans c.nameWidth_le
    · have hfirst := hbreak names hmem
      have hsecond := hbreak names' hmem'
      split_ifs at hfirst hsecond <;> omega
  · rintro ⟨h, hbreaks⟩
    have hle : ∀ names ∈ c.itemNames, myNameWidth names ≤ c.nameWidth := by
      intro names hmem
      have hwidth := (h names hmem).2
      rw [joined, ← myNameWidth_eq] at hwidth
      exact myNameWidth_le hnames hmem hwidth
    refine ⟨(isSome_getHelp_iff hphase).mpr ⟨fun names hmem => (h names hmem).1, ?_⟩,
      fun names hmem => ⟨hle names hmem, (itemHead_of_le (hle names hmem) hwide).1⟩, ?_⟩
    · intro names hmem
      rw [(itemHead_of_le (hle names hmem) hwide).2]
      rfl
    · -- the column is the one of any item
      cases hitems : c.itemNames with
      | nil => exact ⟨0, List.forall_mem_nil _⟩
      | cons first items =>
        have hfirst : first ∈ c.itemNames := hitems ▸ List.mem_cons_self
        obtain ⟨head', -, hline⟩ := lineColumn_itemHead (hle first hfirst) hwide
        refine ⟨lineColumn head', fun names hmem => ?_⟩
        rw [← hitems] at hmem
        obtain ⟨head, hhead, hcolumn⟩ := lineColumn_itemHead (hle names hmem) hwide
        refine ⟨head, hhead, ?_⟩
        rw [hbreaks names hmem first hfirst, ← hline] at hcolumn
        omega

/-! ### Runs -/

/-- A call in the definition phase. -/
inductive Definition where
  | programName (name : Text)
  | description (descrip : Text)
  | epilog (epilog : Text)
  | flag (names : Option Text) (help : Text)
  | param (names help : Option Text) (occurrenceRule : UInt8) (placeholder : Option Text)

/-- A call. -/
def define (c : Cmdline) : Definition → Option Cmdline
  | .programName name => c.setProgramName name
  | .description descrip => c.setDescription descrip
  | .epilog epilog => c.setEpilog epilog
  | .flag names help => c.defineFlag names help
  | .param names help occurrenceRule placeholder =>
    c.defineParam names help occurrenceRule placeholder

/-- The calls were accepted, from the constructor on. -/
def Defined (c : Cmdline) : Prop :=
  Reaches (fun (c : Cmdline) d c' => c.define d = some c') (fun _ _ => True) initial c

theorem wellNamed_split {names : Option Text} {splitters name : Text}
    (h : name ∈ split names splitters) : name ≠ [] :=
  ne_nil_of_mem_splitFrom (fun h => by cases h) h

/-- **The step.** The names of an item are pieces of a split. -/
theorem WellNamed.define {c' : Cmdline} {d : Definition} (h : c.WellNamed)
    (hd : c.define d = some c') : c'.WellNamed := by
  obtain ⟨hflags, hparams⟩ := List.forall_mem_append.mp h
  cases d with
  | programName name | description descrip | epilog epilog =>
    obtain ⟨-, heq⟩ := Option.ite_none_right_eq_some.mp hd
    obtain rfl := Option.some.inj heq
    exact h
  | flag names help =>
    obtain ⟨-, heq⟩ := Option.ite_none_right_eq_some.mp hd
    obtain rfl := Option.some.inj heq
    refine List.forall_mem_append.mpr ⟨?_, hparams⟩
    rw [List.map_append, List.forall_mem_append]
    exact ⟨hflags, List.forall_mem_singleton.mpr fun name hname => wellNamed_split hname⟩
  | param names help occurrenceRule placeholder =>
    obtain ⟨-, heq⟩ := Option.ite_none_right_eq_some.mp hd
    obtain rfl := Option.some.inj heq
    refine List.forall_mem_append.mpr ⟨hflags, ?_⟩
    rw [List.map_append, List.forall_mem_append]
    exact ⟨hparams, List.forall_mem_singleton.mpr fun name hname => wellNamed_split hname⟩

/-- **The run.** -/
theorem Defined.wellNamed (h : c.Defined) : c.WellNamed :=
  h.invariant (List.forall_mem_nil _) fun ht _ hu => ht.define hu

end Cmdline

open Cmdline in
/-- **The help.** For every command line that was defined by accepted calls, and validated, the help
is defined and aligned if and only if every item has a name, its names take 30 bytes at most, and
the last line feed in them is at the same place in all items, if there is one at all. -/
theorem cmdline_aligned_iff {c c' : Cmdline} (h : c.Defined) (hvalid : c.validate = some c') :
    c'.Aligned ↔ (∀ names ∈ c'.itemNames, names ≠ [] ∧ (joined names).length ≤ 30) ∧
      ∀ names ∈ c'.itemNames, ∀ names' ∈ c'.itemNames, lastBreak names = lastBreak names' := by
  obtain ⟨-, heq⟩ := Option.ite_none_right_eq_some.mp hvalid
  obtain rfl := Option.some.inj heq
  exact aligned_iff rfl h.wellNamed

/-- A flag with two names, and a parameter. -/
theorem cmdline_aligned_two : Cmdline.Aligned ⟨.usage, [], [], [],
    [⟨[bytes "--outfile".toList], bytes "output file".toList, ch '?', bytes "OUTFILE".toList⟩],
    [⟨[bytes "-h".toList, bytes "--help".toList], bytes "show help".toList⟩]⟩ := by
  have hflag : Cmdline.Defined ⟨.definition, [], [], [], [],
      [⟨[bytes "-h".toList, bytes "--help".toList], bytes "show help".toList⟩]⟩ :=
    .tail (.flag (some (bytes "-h, --help".toList)) (bytes "show help".toList)) .refl trivial
      (by decide)
  have hparam : Cmdline.Defined ⟨.definition, [], [], [],
      [⟨[bytes "--outfile".toList], bytes "output file".toList, ch '?', bytes "OUTFILE".toList⟩],
      [⟨[bytes "-h".toList, bytes "--help".toList], bytes "show help".toList⟩]⟩ :=
    .tail (.param (some (bytes "--outfile".toList)) (some (bytes "output file".toList)) (ch '?')
      none) hflag trivial (by decide)
  exact (cmdline_aligned_iff hparam rfl).mpr (by decide)

/-- A flag with a name of 32 bytes. The offset is 82. -/
theorem not_cmdline_aligned : ∃ c c', Cmdline.Defined c ∧ c.validate = some c' ∧ ¬ c'.Aligned := by
  -- the column is clamped to 30, and the difference to 32 wraps around
  refine ⟨⟨.definition, [], [], [], [],
    [⟨[bytes "--exclude-generated-source-files".toList], bytes "leave them out".toList⟩]⟩, _,
    .tail (.flag (some (bytes "--exclude-generated-source-files".toList))
      (bytes "leave them out".toList)) .refl trivial (by decide), rfl, fun h => ?_⟩
  have hoffset := (h.offset _ List.mem_cons_self).2
  exact absurd hoffset (by decide)

end Cli

end Intent.Old
