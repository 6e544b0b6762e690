import HashOrbit.Render

/-!
# What a rendering tells

A part of a text whose characters are all of one class is split off its front in one way
only, if what follows it is empty or begins with a character outside of the class.  Numbers
in decimal are such parts, and the digits tell the number.  So a rendering can be read back:
the lines of a report tell its first value and the value before the repeat, its object tells
these and the measurements of the cycle, and the rendering of a pass tells the value, as an
object the register too.
-/

namespace HashOrbit

/-- A text that can stand right after a part of the class `p`. -/
def Delimits (p : Char -> Bool) (cs : List Char) : Prop :=
  forall c, cs.head? = some c -> p c = false

theorem delimits_nil (p : Char -> Bool) : Delimits p [] := by
  intro c h
  cases h

theorem delimits_cons {p : Char -> Bool} {c : Char} (hc : p c = false) (cs : List Char) :
    Delimits p (c :: cs) := by
  intro d h
  cases h
  exact hc

theorem bne_of_mem {c : Char} {cs : List Char} (hnot : c ∉ cs) :
    forall d, d ∈ cs -> (d != c) = true := by
  intro d hd
  apply bne_iff_ne.mpr
  rintro rfl
  exact hnot hd

section Splitting

variable {p : Char -> Bool} {part rest : List Char}

theorem takeWhile_append_of_delimits
    (hpart : forall c, c ∈ part -> p c = true)
    (hrest : Delimits p rest) :
    (part ++ rest).takeWhile p = part := by
  have hstop : rest.takeWhile p = [] := by
    cases rest with
    | nil => rfl
    | cons c cs => simp [hrest c rfl]
  rw [List.takeWhile_append_of_pos hpart, hstop, List.append_nil]

theorem dropWhile_append_of_delimits
    (hpart : forall c, c ∈ part -> p c = true)
    (hrest : Delimits p rest) :
    (part ++ rest).dropWhile p = rest := by
  have hsplit := List.takeWhile_append_dropWhile (p := p) (l := part ++ rest)
  rw [takeWhile_append_of_delimits hpart hrest] at hsplit
  exact List.append_cancel_left hsplit

end Splitting

/-!
## Reading what was written

A key ends at the next quote and a number at the comma or the brace after it.  So the
reader of flat objects gets back every object that the writer has written, if no key holds
a quote, and different objects are never written alike.
-/
namespace FlatObject

theorem decodeNumber?_append {rest : List Char} (n : Nat) (hrest : Delimits Char.isDigit rest) :
    decodeNumber? (Nat.toDigits 10 n ++ rest) = some (n, rest) := by
  have hdigits : forall c, c ∈ Nat.toDigits 10 n -> c.isDigit = true :=
    fun _ => Nat.isDigit_of_mem_toDigits (by decide) (by decide)
  simp only [decodeNumber?, takeWhile_append_of_delimits hdigits hrest,
    dropWhile_append_of_delimits hdigits hrest, Nat.ofDigitChars_ten_toDigits, if_true]

theorem toDigits_append_inj
    {m n : Nat} {xs ys : List Char}
    (hxs : Delimits Char.isDigit xs)
    (hys : Delimits Char.isDigit ys)
    (h : Nat.toDigits 10 m ++ xs = Nat.toDigits 10 n ++ ys) :
    m = n ∧ xs = ys := by
  have hdecode := congrArg decodeNumber? h
  rw [decodeNumber?_append m hxs, decodeNumber?_append n hys] at hdecode
  exact Prod.mk.inj (Option.some.inj hdecode)

theorem toDigits_inj {m n : Nat} (h : Nat.toDigits 10 m = Nat.toDigits 10 n) : m = n := by
  have hempty := delimits_nil Char.isDigit
  exact (toDigits_append_inj hempty hempty (congrArg (· ++ []) h)).1

theorem two_numbers_inj
    {lead : List Char} {c : Char} {between : List Char} {m n m' n' : Nat}
    (hc : c.isDigit = false)
    (h : lead ++ (Nat.toDigits 10 m ++ (c :: between ++ Nat.toDigits 10 n)) =
      lead ++ (Nat.toDigits 10 m' ++ (c :: between ++ Nat.toDigits 10 n'))) :
    m = m' ∧ n = n' := by
  rcases toDigits_append_inj (delimits_cons hc _) (delimits_cons hc _)
      (List.append_cancel_left h) with
    ⟨hfirst, hlater⟩
  exact ⟨hfirst, toDigits_inj (List.append_cancel_left (List.cons.inj hlater).2)⟩

theorem decodeField?_append
    {field : String × Nat} {rest : List Char}
    (hkey : quote ∉ field.1.toList)
    (hrest : Delimits Char.isDigit rest) :
    decodeField? (encodeField field ++ rest) = some (field, rest) := by
  let value := ':' :: (Nat.toDigits 10 field.2 ++ rest)
  have hwritten : encodeField field ++ rest = quote :: (field.1.toList ++ quote :: value) := by
    simp [encodeField, value]
  have hinside := bne_of_mem hkey
  have hquote : Delimits (· != quote) (quote :: value) := delimits_cons rfl value
  rw [hwritten]
  simp only [decodeField?, if_true, dropWhile_append_of_delimits hinside hquote,
    takeWhile_append_of_delimits hinside hquote, value, decodeNumber?_append field.2 hrest,
    String.ofList_toList, Option.map_some]

theorem decodeFields?_of_last
    {cs : List Char} {field : String × Nat}
    (hfield : decodeField? cs = some (field, [closing])) :
    decodeFields? cs = some [field] := by
  rw [decodeFields?]
  split <;> simp_all

theorem decodeFields?_of_comma
    {cs rest : List Char} {field : String × Nat}
    (hfield : decodeField? cs = some (field, ',' :: rest)) :
    decodeFields? cs = (decodeFields? rest).map (field :: ·) := by
  have hcomma : ',' ≠ closing := by decide
  rw [decodeFields?]
  split <;> simp_all

def Plain (o : FlatObject) : Prop :=
  forall key, key ∈ o.map Prod.fst -> quote ∉ key.toList

theorem decodeFields?_append_closing
    {o : FlatObject}
    (hne : o ≠ [])
    (hplain : Plain o) :
    decodeFields? ([','].intercalate (o.map encodeField) ++ [closing]) = some o := by
  induction o with
  | nil => exact absurd rfl hne
  | cons field o ih =>
      have hkey := hplain field.1 List.mem_cons_self
      cases o with
      | nil =>
          have hbrace : Delimits Char.isDigit [closing] := delimits_cons rfl []
          have hwritten : [','].intercalate ([field].map encodeField) = encodeField field := by
            simp [List.intercalate]
          rw [hwritten, decodeFields?_of_last (decodeField?_append hkey hbrace)]
      | cons next o =>
          let later := [','].intercalate ((next :: o).map encodeField) ++ [closing]
          have hlater : decodeFields? later = some (next :: o) :=
            ih (List.cons_ne_nil next o) fun key hk => hplain key (List.mem_cons_of_mem field.1 hk)
          have hcomma : Delimits Char.isDigit (',' :: later) := delimits_cons rfl later
          have hwritten :
              [','].intercalate ((field :: next :: o).map encodeField) ++ [closing] =
                encodeField field ++ ',' :: later := by
            simp [later, List.intercalate]
          rw [hwritten, decodeFields?_of_comma (decodeField?_append hkey hcomma), hlater]
          rfl

theorem read?_render {o : FlatObject} (hplain : Plain o) : read? o.render = some o := by
  rw [read?, render, String.toList_ofList]
  cases o with
  | nil => rfl
  | cons field o =>
      let body := [','].intercalate ((field :: o).map encodeField)
      have hbody : body ++ [closing] ≠ [closing] := by
        intro h
        have hempty : body = [] := List.append_left_eq_self.mp h
        cases o <;> simp [body, List.intercalate, encodeField] at hempty
      show decode? (opening :: (body ++ [closing])) = some (field :: o)
      rw [decode?, if_pos rfl, if_neg hbody]
      exact decodeFields?_append_closing (List.cons_ne_nil field o) hplain

theorem render_inj
    {o o' : FlatObject}
    (hplain : Plain o)
    (hplain' : Plain o')
    (h : o.render = o'.render) :
    o = o' := by
  have hread := congrArg read? h
  rw [read?_render hplain, read?_render hplain'] at hread
  exact Option.some.inj hread

end FlatObject

/-!
## Renderings
-/

theorem toList_lines (u v : UInt32) :
    (soonestLine u ++ "\n" ++ latestLine v).toList =
      "part1: ".toList ++
        (Nat.toDigits 10 u.toNat ++ ('\n' :: "part2: ".toList ++ Nat.toDigits 10 v.toNat)) := by
  simp [soonestLine, latestLine, toString]

theorem lines_inj
    {u v u' v' : UInt32}
    (h : soonestLine u ++ "\n" ++ latestLine v = soonestLine u' ++ "\n" ++ latestLine v') :
    u = u' ∧ v = v' := by
  have hlists := congrArg String.toList h
  rw [toList_lines, toList_lines] at hlists
  rcases FlatObject.two_numbers_inj rfl hlists with ⟨hfirst, hsecond⟩
  exact ⟨UInt32.toNat_inj.mp hfirst, UInt32.toNat_inj.mp hsecond⟩

namespace Report

theorem render_text_eq_iff (a b : Report) :
    a.render .text = b.render .text <->
      a.first = b.first ∧ a.lastBeforeRepeat = b.lastBeforeRepeat := by
  rw [render_text, render_text]
  constructor
  · intro h
    exact lines_inj (Except.ok.inj h)
  · intro h
    rw [h.1, h.2]

theorem plain_fields (r : Report) (length : Nat) : (r.fields length).Plain := by
  show forall key, key ∈ ["cycle_len", "cycle_start", "distinct", "part1", "part2"] -> _
  decide

theorem read?_render_json {r : Report} (hr : r.cycleStart ≤ r.distinct) :
    exists text, r.render .json = .ok text ∧
      FlatObject.read? text = some (r.fields (r.distinct - r.cycleStart)) :=
  ⟨_, render_json_of_le hr, FlatObject.read?_render (r.plain_fields _)⟩

theorem render_json_eq_iff
    {a b : Report}
    (ha : a.cycleStart ≤ a.distinct)
    (hb : b.cycleStart ≤ b.distinct) :
    a.render .json = b.render .json <->
      a.first = b.first ∧ a.lastBeforeRepeat = b.lastBeforeRepeat ∧
        a.distinct = b.distinct ∧ a.cycleStart = b.cycleStart := by
  rw [render_json_of_le ha, render_json_of_le hb]
  constructor
  · intro h
    have hfields := FlatObject.render_inj (a.plain_fields _) (b.plain_fields _) (Except.ok.inj h)
    simp only [fields, List.cons.injEq, Prod.mk.injEq, true_and, and_true] at hfields
    rcases hfields with ⟨_, hstart, hdistinct, hfirst, hlast⟩
    exact ⟨UInt32.toNat_inj.mp hfirst, UInt32.toNat_inj.mp hlast, hdistinct, hstart⟩
  · intro h
    rcases h with ⟨hfirst, hlast, hdistinct, hstart⟩
    simp only [fields, hfirst, hlast, hdistinct, hstart]

end Report

theorem renderPass_text_eq_iff (register value register' value' : UInt32) :
    renderPass register value .text = renderPass register' value' .text <-> value = value' := by
  constructor
  · intro h
    have hlists : (Nat.repr value.toNat).toList = (Nat.repr value'.toNat).toList :=
      congrArg String.toList h
    rw [Nat.toList_repr, Nat.toList_repr] at hlists
    exact UInt32.toNat_inj.mp (FlatObject.toDigits_inj hlists)
  · intro h
    rw [h]
    rfl

theorem plain_passFields (register value : UInt32) : (passFields register value).Plain := by
  show forall key, key ∈ ["register", "value"] -> _
  decide

theorem renderPass_json_eq_iff (register value register' value' : UInt32) :
    renderPass register value .json = renderPass register' value' .json <->
      register = register' ∧ value = value' := by
  constructor
  · intro h
    have hfields := FlatObject.render_inj (plain_passFields register value)
      (plain_passFields register' value') h
    simp only [passFields, List.cons.injEq, Prod.mk.injEq, true_and, and_true] at hfields
    exact ⟨UInt32.toNat_inj.mp hfields.1, UInt32.toNat_inj.mp hfields.2⟩
  · intro h
    rw [h.1, h.2]

/--
As an object two reports whose cycle has a length are rendered alike exactly if they agree
on all but the repeated value, and the numbers of such a report are read back from its
object, with a length that the start of the cycle completes to the count of the values.
As text two reports are rendered alike exactly if they agree on the two values that halt
the program.  A pass as text tells exactly its value, and as an object exactly the register
and the value.
-/
theorem rendering_loses_nothing :
    (forall a b : Report, a.cycleStart ≤ a.distinct -> b.cycleStart ≤ b.distinct ->
      (a.render .json = b.render .json <->
        a.first = b.first ∧ a.lastBeforeRepeat = b.lastBeforeRepeat ∧
          a.distinct = b.distinct ∧ a.cycleStart = b.cycleStart)) ∧
    (forall r : Report, r.cycleStart ≤ r.distinct ->
      exists (text : String) (object : FlatObject) (length : Nat),
        r.render .json = .ok text ∧ FlatObject.read? text = some object ∧
        object.lookup "part1" = some r.first.toNat ∧
        object.lookup "part2" = some r.lastBeforeRepeat.toNat ∧
        object.lookup "distinct" = some r.distinct ∧
        object.lookup "cycle_start" = some r.cycleStart ∧
        object.lookup "cycle_len" = some length ∧
        r.cycleLength = .ok length ∧ length + r.cycleStart = r.distinct) ∧
    (forall a b : Report,
      a.render .text = b.render .text <->
        a.first = b.first ∧ a.lastBeforeRepeat = b.lastBeforeRepeat) ∧
    (forall register value register' value' : UInt32,
      renderPass register value .text = renderPass register' value' .text <->
        value = value') ∧
    forall register value register' value' : UInt32,
      renderPass register value .json = renderPass register' value' .json <->
        register = register' ∧ value = value' := by
  refine ⟨fun _ _ => Report.render_json_eq_iff, ?_, Report.render_text_eq_iff,
    renderPass_text_eq_iff, renderPass_json_eq_iff⟩
  intro r hr
  rcases r.read?_render_json hr with ⟨text, hrender, hread⟩
  exact ⟨text, _, _, hrender, hread, rfl, rfl, rfl, rfl, rfl, Report.cycleLength_eq_ok hr,
    Nat.sub_add_cancel hr⟩

end HashOrbit
