/-!
# Journals

A journal collects records under a filter.  The text of a record is a suspended
computation: a record that the filter hides is never written out.  A filter is read from a
directive, in which blanks are the characters that stand for white space, in ASCII and
beyond.
-/

namespace HashOrbit
namespace Text

def blankRuns : List (Nat × Nat) :=
  [(0x09, 0x0d), (0x20, 0x20), (0x85, 0x85), (0xa0, 0xa0), (0x1680, 0x1680),
    (0x2000, 0x200a), (0x2028, 0x2029), (0x202f, 0x202f), (0x205f, 0x205f),
    (0x3000, 0x3000)]

def isBlank (c : Char) : Bool :=
  blankRuns.any fun (low, high) => low ≤ c.toNat && c.toNat ≤ high

def trimStart (cs : List Char) : List Char :=
  cs.dropWhile isBlank

def trimEnd (cs : List Char) : List Char :=
  (trimStart cs.reverse).reverse

def trim (text : String) : String :=
  String.ofList (trimEnd (trimStart text.toList))

end Text

inductive Level where
  | error
  | warn
  | info
  | debug
  | trace
deriving DecidableEq, Repr

namespace Level

def all : List Level := [error, warn, info, debug, trace]

def name : Level -> String
  | error => "ERROR"
  | warn => "WARN"
  | info => "INFO"
  | debug => "DEBUG"
  | trace => "TRACE"

def rank : Level -> Nat
  | error => 1
  | warn => 2
  | info => 3
  | debug => 4
  | trace => 5

def ofName? (text : String) : Option Level :=
  all.find? fun level => level.name.toList == text.toList.map Char.toUpper

end Level

structure Record where
  level : Level
  target : String
  message : String
deriving DecidableEq, Repr

namespace Record

def line (r : Record) : String :=
  let level := r.level.name.pushn ' ' (5 - r.level.name.length)
  s!"[{level} {r.target}] {r.message}"

end Record

/-!
## Filters
-/

structure Filter where
  target : String
  level : Option Level
deriving DecidableEq, Repr

namespace Filter

def off : Filter := ⟨"", none⟩

def upTo (level : Level) : Filter := ⟨"", some level⟩

def allows (f : Filter) (level : Level) (target : String) : Bool :=
  target.startsWith f.target &&
    match f.level with
    | some least => level.rank ≤ least.rank
    | none => false

def leastLevel? (text : String) : Option (Option Level) :=
  if text.toList.map Char.toUpper = "OFF".toList then
    some none
  else
    (Level.ofName? text).map some

def about (target : String) : Filter := ⟨target, some .trace⟩

/--
Reads `level`, `target` or `target=level`; without a level every record of the
target is kept.  Blanks count only where they end a target that a level follows.
-/
def ofDirective? (text : String) : Option Filter :=
  match (Text.trim text).splitOn "=" with
  | [""] => none
  | [word] => some (((leastLevel? word).map (⟨"", ·⟩)).getD (about word))
  | [target, word] =>
      match Text.trim word with
      | "" => some (about target)
      | level => (leastLevel? level).map (⟨target, ·⟩)
  | _ => none

def ofDirective (text : Option String) : Filter :=
  (text.bind ofDirective?).getD (upTo .error)

end Filter

structure Journal where
  filter : Filter
  records : Array Record
deriving Repr

namespace Journal

def empty (filter : Filter) : Journal := ⟨filter, #[]⟩

def silent : Journal := empty .off

/-- Adds a record if the filter allows it, computing its text only then. -/
def note (j : Journal) (level : Level) (target : String) (message : Unit -> String) : Journal :=
  if j.filter.allows level target then
    { j with records := j.records.push ⟨level, target, message ()⟩ }
  else
    j

theorem filter_note (j : Journal) (level : Level) (target : String) (message : Unit -> String) :
    (j.note level target message).filter = j.filter := by
  unfold note
  split <;> rfl

end Journal

/-!
## Journals as filtered lists

What a run leaves in a journal is one list of records, whatever the filter: the journal
keeps those that its filter allows, in their order.  So two journals of the same run
differ only by their filters.
-/

namespace Filter

def keeps (f : Filter) (r : Record) : Bool :=
  f.allows r.level r.target

theorem allows_upTo (level : Level) (target : String) :
    (upTo level).allows level target = true := by
  unfold allows
  rw [Bool.and_eq_true]
  constructor
  · show target.startsWith "" = true
    exact String.startsWith_string_empty
  · simp [upTo]

theorem allows_of_rank_le
    {f : Filter} {severe level : Level} {target : String}
    (hrank : severe.rank ≤ level.rank)
    (hallows : f.allows level target = true) :
    f.allows severe target = true := by
  unfold allows at hallows ⊢
  cases hleast : f.level with
  | none => simp [hleast] at hallows
  | some least =>
      simp only [hleast, Bool.and_eq_true, decide_eq_true_eq] at hallows ⊢
      exact ⟨hallows.1, Nat.le_trans hrank hallows.2⟩

theorem keeps_info (target : String) (r : Record) :
    keeps ⟨target, some .info⟩ r =
      (decide (r.level ≠ .debug) && keeps ⟨target, some .debug⟩ r) := by
  unfold keeps allows
  cases r.level <;> simp [Level.rank]

def withoutDebug (rs : List Record) : List Record :=
  rs.filter fun r => r.level ≠ .debug

theorem filter_keeps_info (target : String) (rs : List Record) :
    rs.filter (keeps ⟨target, some .info⟩) =
      withoutDebug (rs.filter (keeps ⟨target, some .debug⟩)) := by
  rw [withoutDebug, List.filter_filter]
  congr 1
  funext r
  exact keeps_info target r

end Filter

namespace Journal

def noteAll (j : Journal) : List Record -> Journal
  | [] => j
  | r :: rs => noteAll (j.note r.level r.target fun _ => r.message) rs

theorem noteAll_cons (j : Journal) (r : Record) (rs : List Record) :
    j.noteAll (r :: rs) = (j.note r.level r.target fun _ => r.message).noteAll rs := rfl

theorem noteAll_append (j : Journal) (rs rs' : List Record) :
    j.noteAll (rs ++ rs') = (j.noteAll rs).noteAll rs' := by
  induction rs generalizing j with
  | nil => rfl
  | cons r rs ih =>
      rw [List.cons_append, noteAll_cons, noteAll_cons]
      exact ih _

theorem records_note (j : Journal) (r : Record) :
    (j.note r.level r.target fun _ => r.message).records.toList =
      j.records.toList ++ [r].filter j.filter.keeps := by
  cases hkeeps : j.filter.keeps r with
  | true =>
      have hallows : j.filter.allows r.level r.target = true := hkeeps
      simp [note, hallows, hkeeps]
  | false =>
      have hallows : j.filter.allows r.level r.target = false := hkeeps
      simp [note, hallows, hkeeps]

theorem records_noteAll (j : Journal) (rs : List Record) :
    (j.noteAll rs).records.toList = j.records.toList ++ rs.filter j.filter.keeps := by
  induction rs generalizing j with
  | nil => simp [noteAll]
  | cons r rs ih =>
      have hsplit : (r :: rs).filter j.filter.keeps =
          [r].filter j.filter.keeps ++ rs.filter j.filter.keeps := by
        rw [← List.filter_append]
        rfl
      rw [noteAll_cons, ih, records_note, filter_note, hsplit, List.append_assoc]

theorem records_noteAll_empty (f : Filter) (rs : List Record) :
    ((empty f).noteAll rs).records.toList = rs.filter f.keeps := by
  rw [records_noteAll]
  rfl

theorem records_info_eq (target : String) (rs : List Record) :
    ((empty ⟨target, some .info⟩).noteAll rs).records.toList =
      Filter.withoutDebug ((empty ⟨target, some .debug⟩).noteAll rs).records.toList := by
  rw [records_noteAll_empty, records_noteAll_empty]
  exact Filter.filter_keeps_info target rs

end Journal

end HashOrbit
