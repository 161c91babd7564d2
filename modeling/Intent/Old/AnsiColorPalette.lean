import Intent.Old.Lexer

/-!
# Color palettes

`core/cli/ansi_color_palette.cpp`: a palette is made of lines `name=value`, and looks values up by
the first characters of a name.

* `findNextName`, `findNextValue`, `copyName` — the pairs of a specification
* `fillMaps`, `generateMaps` — the tables: a character leads to a value, to the number of another
  table from 16 on, or to `noMatch`
* `ansiColorPalette`, `mapName` — the constructor and the lookup

A use of memory that is undefined is a `Failure`. The tables are in a vector with room for 8; when
it grows, the references to tables in the calls of `fill_maps` under way go stale.
-/

namespace Intent.Old.Palette

/-- What stops the code: a precondition that does not hold, or an undefined use of memory. The
last one is a bound of the model that is too low. -/
inductive Failure where
  | violation
  | entryIndex
  | mapperIndex
  | mapperNumber
  | staleMapper
  | depth
  deriving DecidableEq

/-! ### Characters -/

/-- `a` to `z`. -/
def isLower (c : UInt8) : Bool := ch 'a' ≤ c && c ≤ ch 'z'

/-- A character that comparisons of names leave out. -/
def isSeparator (c : UInt8) : Bool := c == ch '.' || c == ch '-' || c == ch '_'

/-- `next_name_char`: the character, and where `p` is then. -/
def nextNameChar : Text → UInt8 × Text
  | [] => (0, [])
  | c :: p =>
    if isLower c then (c, p)
    else if isupper c then (c + 32, p)
    else if isdigit c then (c, p)
    else if !isSeparator c then (0, p)
    else nextNameChar p

/-- The characters that `next_name_char` returns one after another, up to the NUL. -/
def nameChars : Text → Text
  | [] => []
  | c :: p =>
    if isLower c then c :: nameChars p
    else if isupper c then (c + 32) :: nameChars p
    else if isdigit c then c :: nameChars p
    else if !isSeparator c then []
    else nameChars p

/-! ### Pairs -/

/-- A character that begins a name in `find_next_name`; the bound is `z` in both ranges. -/
def beginsName (c : UInt8) : Bool := isLower c || (ch 'A' ≤ c && c ≤ ch 'z')

/-- A character in a name. -/
def continuesName (c : UInt8) : Bool := isalnum c || isSeparator c

/-- `find_next_name`: the name, and the text behind it. Where a name ends the text, its length
is never set, and the text begins with it. -/
def findNextName (txt : Text) : Option (Text × Text) :=
  match txt.dropWhile fun c => !beginsName c with
  | [] => none
  | c :: p =>
    if ((c :: p).dropWhile continuesName).isEmpty then some ([], c :: p)
    else some ((c :: p).takeWhile continuesName, (c :: p).dropWhile continuesName)

/-- `find_next_value`, from a point where the equals sign was found or not. -/
def findNextValue (foundEqual : Bool) : Text → Option (UInt8 × Text)
  | [] => none
  | c :: p =>
    if c = ch '=' then
      if foundEqual then none else findNextValue true p
    else if c = ch ' ' then findNextValue foundEqual p
    else if !foundEqual || !isdigit c then none
    else
      match p with
      | d :: p' =>
        -- the precedence of the operators is right for a first digit 1 only
        if isdigit d then some ((c - ch '0') * (10 + (d - ch '0')), p')
        else some (c - ch '0', p)
      | [] => some (c - ch '0', p)

/-- The loop of `copy_name`, with room for so many characters. -/
def copyChars : ℕ → Text → Text
  | 0, _ => []
  | room + 1, p =>
    let next := nextNameChar p
    if next.1 = 0 then [] else next.1 :: copyChars room next.2

theorem length_copyChars_le (room : ℕ) (p : Text) : (copyChars room p).length ≤ room := by
  induction room generalizing p with
  | zero => exact le_rfl
  | succ room ih =>
    rw [copyChars]
    by_cases h : (nextNameChar p).1 = 0
    · simp only [if_pos h, List.length_nil, Nat.zero_le]
    · simp only [if_neg h, List.length_cons, Nat.succ_le_succ (ih _)]

/-- `spec_entry_t`: the value in its first byte, and the name up to its NUL. -/
structure SpecEntry where
  value : UInt8
  name : Text
  short : name.length ≤ 14

/-- An entry with a copy of the name, by `copy_name`. -/
def copyName (pair : Text × UInt8) : SpecEntry :=
  ⟨pair.2, copyChars 14 pair.1, length_copyChars_le 14 pair.1⟩

/-- The byte of an entry at an index from 1 on. What is behind the NUL is never read. -/
def SpecEntry.char (e : SpecEntry) (nameIdx : ℕ) : UInt8 := e.name[nameIdx - 1]?.getD 0

/-! ### Tables -/

/-- `mapper_t`. -/
abbrev Mapper := Vector UInt8 36

/-- `NO_MATCH`. -/
def noMatch : UInt8 := 0xFF

/-- `get_mapper_idx_for_char`. -/
def getMapperIdxForChar (c : UInt8) : UInt8 := if c ≤ ch 'z' then c - ch 'a' else c - ch '0'

/-- The room that `data_t` reserves for tables. -/
def capacity : ℕ := 8

/-- `alloc_mapper`. -/
def allocMapper (mappers : List Mapper) : List Mapper := mappers ++ [Vector.replicate 36 noMatch]

/-- `this_map[idx]`. -/
def Mapper.read (m : Mapper) (idx : UInt8) : Except Failure UInt8 :=
  if h : idx.toNat < 36 then .ok m[idx.toNat] else .error .mapperIndex

/-- `this_map[idx] = value`, for the table at an index. -/
def writeMapper (mappers : List Mapper) (thisMap : ℕ) (idx value : UInt8) :
    Except Failure (List Mapper) :=
  if h : idx.toNat < 36 then .ok (mappers.modify thisMap fun m => m.set idx.toNat value)
  else .error .mapperIndex

/-- What `fill_maps` changes: the tables, and the number of entries without a place. -/
structure Filling where
  mappers : List Mapper
  unfinishedEntryCount : ℕ

section FillMaps

variable (entries : List SpecEntry)

/-- `spec_entry_bitmask`. -/
abbrev SpecEntryBitmask := Fin entries.length → Bool

/-- `same`: the entry, and those to consider that have its character at the index. -/
def sameChar (entriesToConsider : SpecEntryBitmask entries) (nameIdx : ℕ)
    (j : Fin entries.length) : SpecEntryBitmask entries := fun k =>
  k == j || (entriesToConsider k && (entries.get k).char nameIdx == (entries.get j).char nameIdx)

/-- `entries_to_consider` after the entry: the inner loop has taken out the others with its
character, the end of the round takes out the entry. -/
def otherChar (entriesToConsider : SpecEntryBitmask entries) (nameIdx : ℕ)
    (j : Fin entries.length) : SpecEntryBitmask entries := fun k =>
  entriesToConsider k &&
    (k == j || (entries.get k).char nameIdx != (entries.get j).char nameIdx) && k != j

/-- The loop of `fill_maps` over the entries, with its recursive call. -/
def fillEntries (fill : Filling → SpecEntryBitmask entries → Except Failure Filling)
    (thisMap nameIdx : ℕ) :
    List (Fin entries.length) → Filling → SpecEntryBitmask entries → Except Failure Filling
  | [], s, _ => .ok s
  | j :: js, s, entriesToConsider =>
    if entriesToConsider j then
      let idx := getMapperIdxForChar ((entries.get j).char nameIdx)
      let same := sameChar entries entriesToConsider nameIdx j
      let others := otherChar entries entriesToConsider nameIdx j
      let countOfC := (List.finRange entries.length).countP same
      if countOfC = 1 then do
        let mappers ← writeMapper s.mappers thisMap idx (entries.get j).value
        if s.unfinishedEntryCount - 1 = 0 then return ⟨mappers, s.unfinishedEntryCount - 1⟩
        else fillEntries fill thisMap nameIdx js ⟨mappers, s.unfinishedEntryCount - 1⟩ others
      else do
        let mappers := allocMapper s.mappers
        if mappers.length > capacity then throw .staleMapper
        else
          let number := UInt8.ofNat (16 + (mappers.length - 1))
          let mappers ← writeMapper mappers thisMap idx number
          let s ← fill ⟨mappers, s.unfinishedEntryCount⟩ same
          if s.unfinishedEntryCount = 0 then return s
          else fillEntries fill thisMap nameIdx js s others
    else fillEntries fill thisMap nameIdx js s entriesToConsider

/-- `fill_maps`, down to a depth. -/
def fillMaps : ℕ → Filling → SpecEntryBitmask entries → ℕ → Except Failure Filling
  | 0, _, _, _ => .error .depth
  | depth + 1, s, entriesToConsider, nameIdx =>
    fillEntries entries (fun s same => fillMaps depth s same (nameIdx + 1))
      (s.mappers.length - 1) nameIdx (List.finRange entries.length) s entriesToConsider

/-- `generate_maps`; an entry has no more than 16 bytes. -/
def generateMaps : Except Failure (List Mapper) := do
  let s ← fillMaps entries 16 ⟨allocMapper [], entries.length⟩ (fun _ => true) 1
  return s.mappers

end FillMaps

/-! ### Palettes -/

/-- The loop of the constructor over the pairs, with so many rounds left: the names with their
values, or nothing where a value is missing. -/
def readPairs : ℕ → Text → Option (List (Text × UInt8))
  | 0, _ => some []
  | rounds + 1, spec =>
    match findNextName spec with
    | none => some []
    | some (name, spec) =>
      match findNextValue false spec with
      | none => none
      | some (value, spec) => (readPairs rounds spec).map ((name, value) :: ·)

/-- The constructor of `ansi_color_palette`. There are 240 entries, but the loop over the pairs
stops after the 241st. -/
def ansiColorPalette (spec : Text) : Except Failure (List Mapper) :=
  if spec = [] then .error .violation
  else
    match readPairs 241 spec with
    | none => .error .violation
    | some pairs =>
      if pairs.length > 240 then .error .entryIndex else generateMaps (pairs.map copyName)

/-- The loop of `map_name`, with a bound on its rounds. -/
def walk (mappers : List Mapper) : ℕ → Mapper → Text → Except Failure UInt8
  | _, _, [] => .ok 0
  | 0, _, _ :: _ => .error .depth
  | rounds + 1, thisMap, c :: p =>
    let next := nextNameChar (c :: p)
    if next.1 = 0 then .ok 0
    else do
      let n ← thisMap.read (getMapperIdxForChar next.1)
      if n < 16 then return n
      else
        match mappers[n.toNat - 16]? with
        | some thisMap => walk mappers rounds thisMap next.2
        | none => throw .mapperNumber

/-- `map_name`, of a string without its NUL or of a null pointer. -/
def mapName (mappers : List Mapper) (name : Option Text) : Except Failure UInt8 :=
  match name, mappers[0]? with
  | some (c :: p), some thisMap => walk mappers (c :: p).length thisMap (c :: p)
  | some (_ :: _), none => .error .mapperNumber
  | _, _ => .error .violation

end Intent.Old.Palette
