import HashOrbit.Detector

/-!
# Rendering results

A report answers two questions: which value halts the program soonest, the first one
produced, and which halts it latest, the last one before a repeat.  As text each answer is
a line; as an object both stand beside the measurements of the cycle, with the keys in
alphabetical order.  Only the object holds the length of the cycle, so only rendering it
can fail.
-/

namespace HashOrbit

inductive Format where
  | text
  | json
deriving DecidableEq, Repr

namespace Format

def all : List Format := [text, json]

def standard : Format := text

instance : Inhabited Format := ⟨standard⟩

def name : Format -> String
  | text => "text"
  | json => "json"

/-- The format of a name; the names themselves are in lower case. -/
def ofName? (name : String) (ignoreCase : Bool) : Option Format :=
  let letters := if ignoreCase then name.toList.map Char.toLower else name.toList
  all.find? fun format => format.name.toList == letters

def unknownMessage (name : String) : String :=
  s!"invalid variant: {name}"

theorem ofName?_name (format : Format) (ignoreCase : Bool) :
    ofName? format.name ignoreCase = some format := by
  cases format <;> cases ignoreCase <;> decide

end Format

/-!
## Flat objects

A flat object is a list of keys with natural numbers, written in the compact notation of
JSON: no blanks, each number in decimal without leading zeros.  Keys are written as they
are, so a key is read back only if it holds no quote.
-/

abbrev FlatObject := List (String × Nat)

namespace FlatObject

def quote : Char := '\x22'

def opening : Char := '\x7b'

def closing : Char := '\x7d'

def encodeField (field : String × Nat) : List Char :=
  quote :: field.1.toList ++ quote :: ':' :: Nat.toDigits 10 field.2

def encode (o : FlatObject) : List Char :=
  opening :: [','].intercalate (o.map encodeField) ++ [closing]

def render (o : FlatObject) : String :=
  String.ofList (encode o)

def decodeNumber? (cs : List Char) : Option (Nat × List Char) :=
  let digits := cs.takeWhile Char.isDigit
  let n := Nat.ofDigitChars 10 digits 0
  if Nat.toDigits 10 n = digits then
    some (n, cs.dropWhile Char.isDigit)
  else
    none

def decodeField? : List Char -> Option ((String × Nat) × List Char)
  | [] => none
  | c :: cs =>
      if c = quote then
        match cs.dropWhile (· != quote) with
        | _ :: ':' :: rest =>
            (decodeNumber? rest).map fun (n, rest) =>
              ((String.ofList (cs.takeWhile (· != quote)), n), rest)
        | _ => none
      else
        none

theorem length_decodeNumber?
    {cs rest : List Char} {n : Nat}
    (h : decodeNumber? cs = some (n, rest)) :
    rest.length ≤ cs.length := by
  simp only [decodeNumber?] at h
  split at h
  · cases h
    exact (List.dropWhile_sublist Char.isDigit).length_le
  · cases h

theorem length_decodeField?
    {cs rest : List Char} {field : String × Nat}
    (h : decodeField? cs = some (field, rest)) :
    rest.length < cs.length := by
  unfold decodeField? at h
  split at h
  · cases h
  · rename_i c cs
    split at h
    · split at h
      · rename_i skipped tail heq
        obtain ⟨⟨n, after⟩, hn, hpair⟩ := Option.map_eq_some_iff.mp h
        cases hpair
        have hnumber := length_decodeNumber? hn
        have hdrop := (List.dropWhile_sublist (l := cs) (· != quote)).length_le
        rw [heq] at hdrop
        simp only [List.length_cons] at hdrop ⊢
        omega
      · cases h
    · cases h

def decodeFields? (cs : List Char) : Option FlatObject :=
  match hfield : decodeField? cs with
  | none => none
  | some (_, []) => none
  | some (field, c :: rest) =>
      if c = closing ∧ rest = [] then
        some [field]
      else if c = ',' then
        have _hshorter : rest.length < cs.length :=
          Nat.lt_of_succ_lt (length_decodeField? hfield)
        (decodeFields? rest).map (field :: ·)
      else
        none
termination_by cs.length

def decode? : List Char -> Option FlatObject
  | c :: cs =>
      if c = opening then
        if cs = [closing] then some [] else decodeFields? cs
      else
        none
  | [] => none

def read? (text : String) : Option FlatObject :=
  decode? text.toList

end FlatObject

/-!
## Results
-/

def soonestLine (v : UInt32) : String :=
  s!"part1: {v.toNat}"

def latestLine (v : UInt32) : String :=
  s!"part2: {v.toNat}"

namespace Report

def fields (r : Report) (length : Nat) : FlatObject :=
  [("cycle_len", length),
    ("cycle_start", r.cycleStart),
    ("distinct", r.distinct),
    ("part1", r.first.toNat),
    ("part2", r.lastBeforeRepeat.toNat)]

def render (r : Report) : Format -> Except ReportError String
  | .text => .ok s!"{soonestLine r.first}\n{latestLine r.lastBeforeRepeat}"
  | .json => r.cycleLength.map fun length => (r.fields length).render

theorem render_text (r : Report) :
    r.render .text = .ok (soonestLine r.first ++ "\n" ++ latestLine r.lastBeforeRepeat) := rfl

theorem render_json_of_le {r : Report} (h : r.cycleStart ≤ r.distinct) :
    r.render .json = .ok (r.fields (r.distinct - r.cycleStart)).render := by
  rw [render, cycleLength_eq_ok h]
  rfl

theorem render_json_of_lt {r : Report} (h : r.distinct < r.cycleStart) :
    r.render .json = .error .startsTooLate := by
  rw [render, cycleLength_eq_error h]
  rfl

end Report

def passFields (register value : UInt32) : FlatObject :=
  [("register", register.toNat), ("value", value.toNat)]

def renderPass (register value : UInt32) : Format -> String
  | .text => toString value.toNat
  | .json => (passFields register value).render

end HashOrbit
