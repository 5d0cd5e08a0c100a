import NoiseGate.Proofs.Json.Printing

/-!
# Weights of trees

A tree weighs at least as much as any value of it takes when it is printed, and at most so many bytes
for each byte of text that it was read from. So what is read and printed again does not grow beyond a
constant factor.
-/

namespace NoiseGate.Json

/-- The most bytes that are printed for a byte that is read. Numbers make the most of theirs. -/
def growth : Nat := realTextMax + 1

/-- A part of a string is at most four bytes of UTF-8, these are at most two characters each, and a
character is printed in at most six bytes. -/
def textWeight (s : RawString) : Nat := 48 * s.length + 8

mutual

def Tree.weight : Tree → Nat
  | .null => 4
  | .bool _ => 5
  | .number _ => realTextMax
  | .string s => textWeight s
  | .array items => itemsWeight items + 2
  | .object members => membersWeight members + 2

def itemsWeight : List Tree → Nat
  | [] => 0
  | t :: items => t.weight + 1 + itemsWeight items

def membersWeight : List (RawString × Tree) → Nat
  | [] => 0
  | (name, t) :: members => textWeight name + t.weight + 1 + 1 + membersWeight members

end

theorem stringBytes?_length_le (s : RawString) (bytes : Bytes) (h : stringBytes? s = some bytes) :
    bytes.length ≤ 4 * s.length := by
  fun_induction stringBytes? s generalizing bytes with
  | case1 =>
    cases h
    exact Nat.le_refl 0
  | case2 b rest ih =>
    obtain ⟨later, hlater, rfl⟩ := Option.map_eq_some_iff.mp h
    have hle := ih later hlater
    simp only [List.length_cons]
    omega
  | case3 high low rest hhigh hlow ih =>
    obtain ⟨later, hlater, rfl⟩ := Option.map_eq_some_iff.mp h
    have hle := ih later hlater
    have hchar := encodeChar_length_le
      (Char.ofNat (0x10000 + (high - 0xD800) * 0x400 + (low - 0xDC00)))
    simp only [List.length_append, List.length_cons]
    omega
  | case4 => cases h
  | case5 => cases h
  | case6 high low rest hhigh hlow ih =>
    obtain ⟨later, hlater, rfl⟩ := Option.map_eq_some_iff.mp h
    have hle := ih later hlater
    have hchar := encodeChar_length_le (Char.ofNat high)
    simp only [List.length_append, List.length_cons] at hle ⊢
    omega
  | case7 => cases h
  | case8 code rest hnext hcode ih =>
    obtain ⟨later, hlater, rfl⟩ := Option.map_eq_some_iff.mp h
    have hle := ih later hlater
    have hchar := encodeChar_length_le (Char.ofNat code)
    simp only [List.length_append, List.length_cons]
    omega

theorem lead_length_le (b : UInt8) : (Utf8.lead b).1.length ≤ 1 := by
  unfold Utf8.lead
  iterate 5
    split
    · simp
  simp

theorem step_length_le (state : Utf8.State) (b : UInt8) : (Utf8.step state b).1.length ≤ 2 := by
  have hlead := lead_length_le b
  cases state with
  | ground => exact Nat.le_succ_of_le hlead
  | inside more low high code =>
    unfold Utf8.step
    dsimp only
    split
    · split <;> simp
    · exact Nat.succ_le_succ hlead

theorem pieces_length_le (bytes : Bytes) : (Utf8.pieces bytes).length ≤ 2 * bytes.length + 1 := by
  have hfold (d : Utf8.Decoder) :
      (bytes.foldl Utf8.Decoder.push d).done.length ≤ d.done.length + 2 * bytes.length := by
    induction bytes generalizing d with
    | nil => exact Nat.le_refl _
    | cons b bytes ih =>
      have hstep := step_length_le d.state b
      have hrest := ih (d.push b)
      have hpush : (d.push b).done.length = (Utf8.step d.state b).1.length + d.done.length := by
        rw [Utf8.Decoder.push, List.length_append, List.length_reverse]
      rw [List.foldl_cons, List.length_cons]
      omega
  have hall : (bytes.foldl Utf8.Decoder.push .start).done.length ≤ 0 + 2 * bytes.length :=
    hfold .start
  unfold Utf8.pieces Utf8.Decoder.finish
  split
  · rw [List.length_reverse]
    omega
  · rw [List.length_reverse, List.length_cons]
    omega

theorem decode?_length_le (bytes : Bytes) (s : Text) (h : Utf8.decode? bytes = some s) :
    s.length ≤ 2 * bytes.length + 1 := by
  have hmap (pieces : List Utf8.Piece) (s : Text) (hs : pieces.mapM id = some s) :
      s.length = pieces.length := by
    induction pieces generalizing s with
    | nil =>
      cases hs
      rfl
    | cons piece pieces ih =>
      rw [List.mapM_cons] at hs
      obtain ⟨c, -, hs⟩ := Option.bind_eq_some_iff.mp hs
      obtain ⟨rest, hrest, hs⟩ := Option.bind_eq_some_iff.mp hs
      cases hs
      exact congrArg Nat.succ (ih rest hrest)
  rw [hmap _ s h]
  exact pieces_length_le bytes

theorem text?_print_length_le (s : RawString) (text : Text) (h : text? s = some text) :
    (printText text).length ≤ textWeight s := by
  obtain ⟨bytes, hbytes, hdecode⟩ := Option.bind_eq_some_iff.mp h
  have hraw := stringBytes?_length_le s bytes hbytes
  have hchars := decode?_length_le bytes text hdecode
  have hprint := printText_length_le text
  unfold textWeight
  omega

section Values

variable {depth : Nat}
  (hvalue : ∀ t v, Tree.value? depth t = some v → v.print.length ≤ t.weight)

include hvalue

theorem printItems_length_le (items : List Tree) (values : List Value)
    (h : items.mapM (Tree.value? depth) = some values) :
    (printItems values).length ≤ itemsWeight items := by
  induction items generalizing values with
  | nil =>
    cases h
    exact Nat.le_refl 0
  | cons t items ih =>
    rw [List.mapM_cons] at h
    obtain ⟨v, hv, h⟩ := Option.bind_eq_some_iff.mp h
    obtain ⟨rest, hrest, h⟩ := Option.bind_eq_some_iff.mp h
    cases h
    have hfirst := hvalue t v hv
    have hlater := ih rest hrest
    have hcons := printItems_cons_length_le v rest
    rw [itemsWeight]
    omega

theorem membersLength_le (members : List (RawString × Tree)) (values : List (Text × Value))
    (h : (members.mapM fun (name, t) => do return (← text? name, ← Tree.value? depth t)) =
      some values) : membersLength values ≤ membersWeight members := by
  induction members generalizing values with
  | nil =>
    cases h
    exact Nat.le_refl 0
  | cons member members ih =>
    obtain ⟨name, t⟩ := member
    rw [List.mapM_cons] at h
    obtain ⟨⟨text, v⟩, hmember, h⟩ := Option.bind_eq_some_iff.mp h
    obtain ⟨rest, hrest, h⟩ := Option.bind_eq_some_iff.mp h
    cases h
    obtain ⟨text', htext, hmember⟩ := Option.bind_eq_some_iff.mp hmember
    obtain ⟨v', hv, hmember⟩ := Option.bind_eq_some_iff.mp hmember
    cases hmember
    have hname := text?_print_length_le name text htext
    have hfirst := hvalue t v hv
    have hlater := ih rest hrest
    rw [membersLength_cons, membersWeight]
    omega

end Values

/-- A value of a tree is no longer in print than the tree weighs. -/
theorem value?_print_length_le : ∀ (depth : Nat) (t : Tree) (v : Value), t.value? depth = some v →
    v.print.length ≤ t.weight
  | _, .null, v, h => by
    rw [Tree.value?] at h
    cases h
    decide
  | _, .bool b, v, h => by
    rw [Tree.value?] at h
    cases h
    cases b <;> decide
  | _, .number n, v, h => by
    rw [Tree.value?] at h
    obtain ⟨number, hnumber, rfl⟩ := Option.map_eq_some_iff.mp h
    exact number.print_length_le (value?_fits n number hnumber)
  | _, .string s, v, h => by
    rw [Tree.value?] at h
    obtain ⟨text, htext, rfl⟩ := Option.map_eq_some_iff.mp h
    exact text?_print_length_le s text htext
  | 0, .array _, v, h => by cases h
  | 0, .object _, v, h => by cases h
  | depth + 1, .array items, v, h => by
    obtain ⟨values, hvalues, rfl⟩ := Option.map_eq_some_iff.mp h
    have hitems := printItems_length_le (value?_print_length_le depth) items values hvalues
    simp only [Value.print, Tree.weight, List.length_append, List.length_cons, List.length_nil]
    omega
  | depth + 1, .object members, v, h => by
    obtain ⟨values, hvalues, rfl⟩ := Option.map_eq_some_iff.mp h
    have hmembers := membersLength_le (value?_print_length_le depth) members values hvalues
    have horder := membersLength_orderMembers values
    have hprint := printMembers_length (orderMembers values)
    simp only [Value.print, Tree.weight, List.length_append, List.length_cons, List.length_nil]
    omega

/-- A reader of items uses up the text for what an item costs. -/
def Spends {α : Type} (cost : α → Nat) (item : Bytes → Option (α × Bytes)) : Prop :=
  ∀ s x rest, item s = some (x, rest) → cost x + growth * rest.length ≤ growth * s.length

/-- What items cost together, with one byte for each to keep it apart from the next. -/
def total {α : Type} (cost : α → Nat) : List α → Nat
  | [] => 0
  | x :: items => cost x + 1 + total cost items

theorem total_append {α : Type} (cost : α → Nat) (first rest : List α) :
    total cost (first ++ rest) = total cost first + total cost rest := by
  induction first with
  | nil => exact (Nat.zero_add _).symm
  | cons x first ih =>
    rw [List.cons_append, total, ih, total]
    omega

theorem total_reverse {α : Type} (cost : α → Nat) (items : List α) :
    total cost items.reverse = total cost items := by
  induction items with
  | nil => rfl
  | cons x items ih =>
    rw [List.reverse_cons, total_append, ih]
    exact Nat.add_comm _ _

theorem growth_eq : growth = 748 := rfl

theorem skipSpace_length_le (s : Bytes) : (skipSpace s).length ≤ s.length :=
  (List.dropWhile_sublist _).length_le

theorem skipSpace_cons_length_lt {s rest : Bytes} {b : UInt8} (h : skipSpace s = b :: rest) :
    rest.length < s.length := by
  have hle := skipSpace_length_le s
  rw [h] at hle
  exact hle

theorem readString_length_lt (parts : RawString) (s : Bytes) (raw : RawString) (rest : Bytes)
    (h : readString parts s = some (raw, rest)) :
    raw.length + rest.length < parts.length + s.length := by
  fun_induction readString parts s with
  | case1 => cases h
  | case2 parts rest' =>
    cases h
    rw [List.length_reverse, List.length_cons]
    omega
  | case3 parts a b c d rest' code hcode ih =>
    have hlater := ih h
    simp only [List.length_cons] at hlater ⊢
    omega
  | case4 => cases h
  | case5 parts e rest' hnext code hcode ih =>
    have hlater := ih h
    simp only [List.length_cons] at hlater ⊢
    omega
  | case6 => cases h
  | case7 => cases h
  | case8 parts b rest' hquote hunit hescape hprintable ih =>
    have hlater := ih h
    simp only [List.length_cons] at hlater ⊢
    omega

theorem readFraction_length_le (s digits rest : Bytes)
    (h : Numeral.readFraction s = some (digits, rest)) : rest.length ≤ s.length := by
  unfold Numeral.readFraction at h
  split at h
  · rename_i behind
    dsimp only at h
    obtain ⟨-, h⟩ := Option.ite_none_left_eq_some.mp h
    cases h
    rw [List.length_drop, List.length_cons]
    omega
  · cases h
    exact Nat.le_refl _

theorem readExponent_length_le (s : Bytes) (exponent : Option (Bool × Bytes)) (rest : Bytes)
    (h : Numeral.readExponent s = some (exponent, rest)) : rest.length ≤ s.length := by
  unfold Numeral.readExponent at h
  split at h
  · split at h
    · rename_i e behind _
      split at h
      rename_i negative digits hsign
      have hdigits : digits.length ≤ behind.length := by
        split at hsign <;> cases hsign
        · exact Nat.le_succ _
        · exact Nat.le_succ _
        · exact Nat.le_refl _
      dsimp only at h
      obtain ⟨-, h⟩ := Option.ite_none_left_eq_some.mp h
      cases h
      rw [List.length_drop, List.length_cons]
      omega
    · cases h
      exact Nat.le_refl _
  · cases h
    exact Nat.le_refl _

theorem numeral_read_length_lt (s : Bytes) (n : Numeral) (rest : Bytes)
    (h : Numeral.read s = some (n, rest)) : rest.length < s.length := by
  unfold Numeral.read at h
  split at h
  rename_i negative unsigned hsign
  have hunsigned : unsigned.length ≤ s.length := by
    split at hsign <;> cases hsign
    · exact Nat.le_succ _
    · exact Nat.le_refl _
  dsimp only at h
  split at h
  · cases h
  rename_i hwhole
  have hne : 0 < (unsigned.takeWhile isDigit).length := by
    apply List.length_pos_iff.mpr
    intro hnil
    exact hwhole (by simp [hnil])
  have hlen := (List.takeWhile_sublist isDigit (l := unsigned)).length_le
  obtain ⟨⟨fraction, behind⟩, hfraction, h⟩ := Option.bind_eq_some_iff.mp h
  obtain ⟨⟨exponent, last⟩, hexponent, h⟩ := Option.bind_eq_some_iff.mp h
  cases h
  have hbehind := readFraction_length_le _ fraction behind hfraction
  have hlast := readExponent_length_le behind exponent _ hexponent
  rw [List.length_drop] at hbehind
  change last.length < s.length
  omega

section Lists

variable {α : Type} {cost : α → Nat} {item : Bytes → Option (α × Bytes)} (hitem : Spends cost item)

include hitem

theorem readItems_spends (close : UInt8) (fuel : Nat) (items : List α) (s : Bytes) (all : List α)
    (rest : Bytes) (h : readItems item close fuel items s = some (all, rest)) :
    total cost all + growth * rest.length ≤
      total cost items + growth * s.length := by
  induction fuel generalizing items s with
  | zero => cases h
  | succ fuel ih =>
    rw [readItems] at h
    obtain ⟨⟨x, later⟩, hx, h⟩ := Option.bind_eq_some_iff.mp h
    have hcost := hitem s x later hx
    dsimp only at h
    split at h
    · cases h
    rename_i b behind hskip
    have hlt := skipSpace_cons_length_lt hskip
    rw [growth_eq] at hcost ⊢
    split at h
    · cases h
      rw [total_reverse, total]
      omega
    · obtain ⟨-, h⟩ := Option.ite_none_right_eq_some.mp h
      have hlater := ih (x :: items) behind h
      rw [growth_eq, total] at hlater
      omega

theorem readList_spends (close : UInt8) (s : Bytes) (all : List α) (rest : Bytes)
    (h : readList item close s = some (all, rest)) :
    total cost all + growth * rest.length ≤ growth * s.length := by
  unfold readList at h
  split at h
  · cases h
  rename_i b behind hskip
  split at h
  · cases h
    have hlt := skipSpace_cons_length_lt hskip
    rw [growth_eq, total]
    omega
  · have hitems := readItems_spends hitem close s.length [] s all rest h
    rwa [total, Nat.zero_add] at hitems

end Lists

theorem itemsWeight_eq (items : List Tree) :
    itemsWeight items = total Tree.weight items := by
  induction items with
  | nil => rfl
  | cons t items ih => rw [itemsWeight, ih, total]

def memberWeight (member : RawString × Tree) : Nat := textWeight member.1 + member.2.weight + 1

theorem membersWeight_eq (members : List (RawString × Tree)) :
    membersWeight members = total memberWeight members := by
  induction members with
  | nil => rfl
  | cons member members ih => rw [membersWeight, ih, total, memberWeight]

theorem readMember_spends (value : Bytes → Option (Tree × Bytes)) (hv : Spends Tree.weight value) :
    Spends memberWeight (readMember value) := by
  intro s member rest h
  unfold readMember at h
  split at h
  · rename_i behind hskip
    obtain ⟨⟨key, later⟩, hkey, h⟩ := Option.bind_eq_some_iff.mp h
    dsimp only at h
    split at h
    · rename_i text hcolon
      obtain ⟨⟨t, last⟩, ht, h⟩ := Option.bind_eq_some_iff.mp h
      cases h
      have hquote := skipSpace_cons_length_lt hskip
      have hstring := readString_length_lt [] behind key later hkey
      have hpoint := skipSpace_cons_length_lt hcolon
      have hvalue := hv text t _ ht
      simp only [memberWeight, textWeight, growth_eq, List.length_nil] at *
      omega
    · cases h
  · cases h

theorem readLiteral_length_le (word : Bytes) (t t' : Tree) (s rest : Bytes)
    (h : readLiteral word t s = some (t', rest)) : t' = t ∧ rest.length ≤ s.length := by
  obtain ⟨-, h⟩ := Option.ite_none_right_eq_some.mp h
  cases h
  exact ⟨rfl, (List.drop_sublist _ s).length_le⟩

theorem read_spends (depth : Nat) : Spends Tree.weight (Tree.read depth) := by
  induction depth with
  | zero =>
    intro s t rest h
    cases h
  | succ depth ih =>
    intro s t rest h
    unfold Tree.read at h
    split at h
    · cases h
    rename_i b behind hskip
    have hlt := skipSpace_cons_length_lt hskip
    rw [growth_eq]
    split at h
    · obtain ⟨⟨parts, later⟩, hparts, h⟩ := Option.map_eq_some_iff.mp h
      cases h
      have hstring := readString_length_lt [] behind parts rest hparts
      simp only [Tree.weight, textWeight, List.length_nil] at *
      omega
    split at h
    · obtain ⟨⟨items, later⟩, hitems, h⟩ := Option.map_eq_some_iff.mp h
      cases h
      have hlist := readList_spends ih 93 behind items rest hitems
      rw [← itemsWeight_eq, growth_eq] at hlist
      rw [Tree.weight]
      omega
    split at h
    · obtain ⟨⟨members, later⟩, hmembers, h⟩ := Option.map_eq_some_iff.mp h
      cases h
      have hlist := readList_spends (readMember_spends _ ih) 125 behind members rest hmembers
      rw [← membersWeight_eq, growth_eq] at hlist
      rw [Tree.weight]
      omega
    iterate 3
      split at h
      · obtain ⟨rfl, hle⟩ := readLiteral_length_le _ _ t behind rest h
        rw [Tree.weight]
        omega
    obtain ⟨⟨n, later⟩, hn, h⟩ := Option.map_eq_some_iff.mp h
    cases h
    have hnumber := numeral_read_length_lt _ n rest hn
    rw [Tree.weight, show realTextMax = 747 from rfl]
    rw [List.length_cons] at hnumber
    omega

/-- A value is no longer in print than so many times the text that it was read from. -/
theorem parse?_print_length_le (text : Bytes) (v : Value) (h : Value.parse? text = some v) :
    v.print.length ≤ growth * text.length := by
  obtain ⟨t, ht, hv⟩ := Option.bind_eq_some_iff.mp h
  have hprint := value?_print_length_le maxDepth t v hv
  unfold Tree.parse? at ht
  split at ht
  · rename_i t' rest hread
    obtain ⟨-, ht⟩ := Option.ite_none_right_eq_some.mp ht
    cases ht
    have hspent := read_spends (text.length + 1) text t rest hread
    omega
  · cases ht

end NoiseGate.Json
