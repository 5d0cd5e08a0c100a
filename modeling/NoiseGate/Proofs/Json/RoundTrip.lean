import NoiseGate.Proofs.Json.Members
import NoiseGate.Proofs.Json.Scalars

/-!
# Printed values are read back

A value that nests no deeper than the reader allows and has no numbers but integers is read from its
print as itself. What is printed between commas is read item by item, whatever the items are.
-/

namespace NoiseGate.Json

/-- A value that nests at most `depth` lists. The members of its objects stand in their order, as in
every value that is read. -/
inductive Value.Nests : Nat → Value → Prop
  | null (depth : Nat) : Nests depth .null
  | bool (depth : Nat) (b : Bool) : Nests depth (.bool b)
  | number (depth : Nat) (n : Number) : Nests depth (.number n)
  | string (depth : Nat) (s : Text) : Nests depth (.string s)
  | array (depth : Nat) (items : List Value) (h : ∀ v ∈ items, Nests depth v) :
      Nests (depth + 1) (.array items)
  | object (depth : Nat) (members : List (Text × Value)) (order : InOrder members)
      (h : ∀ m ∈ members, Nests depth m.2) : Nests (depth + 1) (.object members)

/-- A value whose numbers are integers of a machine word. -/
inductive Value.Integral : Value → Prop
  | null : Integral .null
  | bool (b : Bool) : Integral (.bool b)
  | integer (n : Int) (h : IsWord n) : Integral (.number (.integer n))
  | string (s : Text) : Integral (.string s)
  | array (items : List Value) (h : ∀ v ∈ items, Integral v) : Integral (.array items)
  | object (members : List (Text × Value)) (h : ∀ m ∈ members, Integral m.2) :
      Integral (.object members)

theorem value?_nests : ∀ (depth : Nat) (t : Tree) (v : Value), t.value? depth = some v →
    v.Nests depth
  | depth, .null, v, h => by
    rw [Tree.value?] at h
    cases h
    exact .null depth
  | depth, .bool b, v, h => by
    rw [Tree.value?] at h
    cases h
    exact .bool depth b
  | depth, .number n, v, h => by
    rw [Tree.value?] at h
    obtain ⟨number, -, rfl⟩ := Option.map_eq_some_iff.mp h
    exact .number depth number
  | depth, .string s, v, h => by
    rw [Tree.value?] at h
    obtain ⟨text, -, rfl⟩ := Option.map_eq_some_iff.mp h
    exact .string depth text
  | 0, .array _, v, h => by cases h
  | 0, .object _, v, h => by cases h
  | depth + 1, .array items, v, h => by
    obtain ⟨values, hvalues, rfl⟩ := (value?_array_iff depth items v).mp h
    apply Value.Nests.array
    intro w hw
    obtain ⟨t, ht⟩ := forall₂_right hvalues w hw
    exact value?_nests depth t w ht
  | depth + 1, .object members, v, h => by
    obtain ⟨values, hvalues, rfl⟩ := (value?_object_iff depth members v).mp h
    apply Value.Nests.object _ _ (inOrder_orderMembers values)
    intro w hw
    obtain ⟨m, hm⟩ := forall₂_right hvalues w (mem_orderMembers values w hw)
    exact value?_nests depth m.2 w.2 hm.2

theorem parse?_nests (text : Bytes) (v : Value) (h : Value.parse? text = some v) :
    v.Nests maxDepth := by
  obtain ⟨t, -, ht⟩ := Option.bind_eq_some_iff.mp h
  exact value?_nests maxDepth t v ht

/-! ### Items between commas -/

def commas : List Bytes → Bytes
  | [] => []
  | [text] => text
  | text :: next :: texts => text ++ 44 :: commas (next :: texts)

theorem printItems_eq (items : List Value) : printItems items = commas (items.map Value.print) := by
  induction items with
  | nil => rfl
  | cons v items ih =>
    cases items with
    | nil => rfl
    | cons w items =>
      rw [printItems, ih]
      rfl

def printMember (m : Text × Value) : Bytes := printText m.1 ++ 58 :: m.2.print

theorem printMembers_eq (members : List (Text × Value)) :
    printMembers members = commas (members.map printMember) := by
  induction members with
  | nil => rfl
  | cons m members ih =>
    obtain ⟨name, v⟩ := m
    cases members with
    | nil => rfl
    | cons w members =>
      rw [printMembers, ih]
      rfl

def Begins (text : Bytes) : Prop :=
  ∃ b tail, text = b :: tail ∧ isSpace b = false ∧ b ≠ 93 ∧ b ≠ 125

/-- An item is read from its text, wherever it stands. -/
def ReadsAs {α : Type} (item : Bytes → Option (α × Bytes)) (text : Bytes) (x : α) : Prop :=
  ∀ rest, EndsNumeral rest → item (text ++ rest) = some (x, rest)

theorem skipSpace_cons (b : UInt8) (rest : Bytes) (hb : isSpace b = false) :
    skipSpace (b :: rest) = b :: rest :=
  List.dropWhile_cons_of_neg (by simp [hb])

theorem length_le_commas (texts : List Bytes) :
    ∀ text ∈ texts, text.length ≤ (commas texts).length := by
  fun_induction commas texts with
  | case1 => exact nofun
  | case2 text => simp
  | case3 text next texts ih =>
    intro other ho
    rw [List.length_append, List.length_cons]
    rcases List.mem_cons.mp ho with rfl | ho
    · exact Nat.le_add_right _ _
    · have hother := ih other ho
      omega

theorem count_le_commas (texts : List Bytes) (hb : ∀ text ∈ texts, Begins text) :
    texts.length ≤ (commas texts).length := by
  have hpos (text : Bytes) (h : Begins text) : 0 < text.length := by
    obtain ⟨b, tail, rfl, -⟩ := h
    exact Nat.succ_pos _
  fun_induction commas texts with
  | case1 => exact Nat.le_refl 0
  | case2 text => exact hpos text (hb text List.mem_cons_self)
  | case3 text next texts ih =>
    have hrest := ih fun other ho => hb other (List.mem_cons_of_mem _ ho)
    have hfirst := hpos text (hb text List.mem_cons_self)
    simp only [List.length_append, List.length_cons] at hrest ⊢
    omega

theorem commas_cons (text : Bytes) (texts : List Bytes) :
    ∃ more, commas (text :: texts) = text ++ more := by
  cases texts with
  | nil => exact ⟨[], (List.append_nil text).symm⟩
  | cons next texts => exact ⟨_, rfl⟩

section Lists

variable {α : Type} {item : Bytes → Option (α × Bytes)} {close : UInt8}
  (hclose : close = 93 ∨ close = 125)

include hclose

theorem skipSpace_close (rest : Bytes) : skipSpace (close :: rest) = close :: rest := by
  rcases hclose with rfl | rfl <;> exact skipSpace_cons _ rest (by decide)

theorem endsNumeral_close (rest : Bytes) : EndsNumeral (close :: rest) := by
  rcases hclose with rfl | rfl <;> exact endsNumeral_cons _ _ (by decide)

theorem readItems_commas (texts : List Bytes) (xs : List α)
    (h : List.Forall₂ (ReadsAs item) texts xs) (hne : texts ≠ []) (fuel : Nat)
    (hf : texts.length ≤ fuel) (done : List α) (rest : Bytes) :
    readItems item close fuel done (commas texts ++ close :: rest) =
      some (done.reverse ++ xs, rest) := by
  induction h generalizing fuel done with
  | nil => exact absurd rfl hne
  | @cons text x texts xs hfirst hrest ih =>
    obtain ⟨fuel, rfl⟩ := Nat.exists_eq_succ_of_ne_zero (Nat.ne_zero_of_lt hf)
    cases hrest with
    | nil =>
      have hitem := hfirst (close :: rest) (endsNumeral_close hclose rest)
      rw [readItems, commas, hitem]
      dsimp only [Option.bind_eq_bind, Option.bind_some]
      rw [skipSpace_close hclose]
      dsimp only
      rw [if_pos rfl, List.reverse_cons]
    | @cons next y texts xs hnext hrest =>
      have hcomma : EndsNumeral (44 :: (commas (next :: texts) ++ close :: rest)) :=
        endsNumeral_cons _ _ (by decide)
      have hitem := hfirst _ hcomma
      have hother : (44 : UInt8) ≠ close := by
        rcases hclose with rfl | rfl <;> decide
      rw [readItems, commas, List.append_assoc, List.cons_append, hitem]
      dsimp only [Option.bind_eq_bind, Option.bind_some]
      rw [skipSpace_cons 44 _ (by decide)]
      dsimp only
      rw [if_neg hother, if_pos rfl, ih (List.cons_ne_nil _ _) fuel (Nat.le_of_succ_le_succ hf),
        List.reverse_cons, List.append_assoc]
      rfl

theorem readList_commas (texts : List Bytes) (xs : List α)
    (h : List.Forall₂ (ReadsAs item) texts xs) (hb : ∀ text ∈ texts, Begins text) (rest : Bytes) :
    readList item close (commas texts ++ close :: rest) = some (xs, rest) := by
  cases texts with
  | nil =>
    cases h
    rw [commas, List.nil_append, readList, skipSpace_close hclose]
    exact if_pos rfl
  | cons text texts =>
    have hcount := count_le_commas (text :: texts) hb
    have hitems := readItems_commas hclose (text :: texts) xs h (List.cons_ne_nil _ _)
      (commas (text :: texts) ++ close :: rest).length (by rw [List.length_append]; omega) [] rest
    obtain ⟨b, tail, htext, hspace, hbracket, hbrace⟩ := hb text List.mem_cons_self
    have hother : b ≠ close := by
      rcases hclose with rfl | rfl
      · exact hbracket
      · exact hbrace
    obtain ⟨more, hmore⟩ := commas_cons text texts
    rw [hmore, htext, List.cons_append, List.cons_append] at hitems ⊢
    rw [readList, skipSpace_cons b _ hspace]
    dsimp only
    rw [if_neg hother]
    exact hitems

end Lists

/-! ### Values -/

theorem readLiteral_append (word : Bytes) (t : Tree) (rest : Bytes) :
    readLiteral word t (word ++ rest) = some (t, rest) := by
  have hprefix : word.isPrefixOf (word ++ rest) = true :=
    List.isPrefixOf_iff_prefix.mpr (List.prefix_append word rest)
  rw [readLiteral, if_pos hprefix, List.drop_left]

theorem begins_number (b : UInt8) (hb : b = 45 ∨ isDigit b = true) :
    isSpace b = false ∧ b ≠ 93 ∧ b ≠ 125 := by
  have hnot (other : UInt8) (ho : ¬ (other = 45 ∨ isDigit other = true)) : b ≠ other := by
    rintro rfl
    exact ho hb
  refine ⟨?_, hnot 93 (by decide), hnot 125 (by decide)⟩
  simp [isSpace, hnot 32 (by decide), hnot 10 (by decide), hnot 9 (by decide), hnot 13 (by decide)]

namespace Tree

variable (fuel : Nat) (rest : Bytes)

theorem read_string : read (fuel + 1) (34 :: rest) =
    (readString [] rest).map fun (parts, s) => (.string parts, s) := rfl

theorem read_array : read (fuel + 1) (91 :: rest) =
    (readList (read fuel) 93 rest).map fun (items, s) => (.array items, s) := rfl

theorem read_object : read (fuel + 1) (123 :: rest) =
    (readList (readMember (read fuel)) 125 rest).map fun (members, s) => (.object members, s) := rfl

theorem read_null : read (fuel + 1) (110 :: rest) = readLiteral (ascii "ull") .null rest := rfl

theorem read_true : read (fuel + 1) (116 :: rest) =
    readLiteral (ascii "rue") (.bool true) rest := rfl

theorem read_false : read (fuel + 1) (102 :: rest) =
    readLiteral (ascii "alse") (.bool false) rest := rfl

theorem read_number (b : UInt8) (hb : b = 45 ∨ isDigit b = true) :
    read (fuel + 1) (b :: rest) =
      (Numeral.read (b :: rest)).map fun (n, s) => (.number n, s) := by
  have hnot (other : UInt8) (ho : ¬ (other = 45 ∨ isDigit other = true)) : b ≠ other := by
    rintro rfl
    exact ho hb
  rw [read, skipSpace_cons b rest (begins_number b hb).1]
  dsimp only
  rw [if_neg (hnot 34 (by decide)), if_neg (hnot 91 (by decide)), if_neg (hnot 123 (by decide)),
    if_neg (hnot 110 (by decide)), if_neg (hnot 116 (by decide)), if_neg (hnot 102 (by decide))]

end Tree

/-- A text that begins like a value, and from which a tree is read, wherever it stands. -/
structure Prints (text : Bytes) (t : Tree) : Prop where
  begins : Begins text
  reads (fuel : Nat) (hf : text.length < fuel) : ReadsAs (Tree.read fuel) text t

theorem Prints.of_cons (b : UInt8) (tail : Bytes) (t : Tree)
    (hb : isSpace b = false ∧ b ≠ 93 ∧ b ≠ 125)
    (h : ∀ fuel rest, tail.length < fuel → EndsNumeral rest →
      Tree.read (fuel + 1) (b :: (tail ++ rest)) = some (t, rest)) : Prints (b :: tail) t := by
  refine ⟨⟨b, tail, rfl, hb⟩, ?_⟩
  intro fuel hf rest hrest
  -- the first byte of a text pays for the fuel that it takes to read it
  obtain ⟨fuel, rfl⟩ := Nat.exists_eq_succ_of_ne_zero (Nat.ne_zero_of_lt hf)
  exact h fuel rest (Nat.lt_of_succ_lt_succ hf) hrest

theorem prints_text (s : Text) : Prints (printText s) (.string (rawText s)) := by
  have htext : printText s = 34 :: (s.flatMap printChar ++ [34]) := rfl
  rw [htext]
  apply Prints.of_cons 34 _ _ (by decide)
  intro fuel rest _ _
  rw [Tree.read_string, List.append_assoc, List.singleton_append, readString_printText]
  rfl

theorem prints_integer (n : Int) : Prints (Number.integer n).print (.number (.ofInt n)) := by
  obtain ⟨b, tail, hprint, hb⟩ : ∃ b tail, (Number.integer n).print = b :: tail ∧
      (b = 45 ∨ isDigit b = true) := by
    by_cases hn : n < 0
    · rw [Number.print, if_pos hn]
      exact ⟨45, decimal n.natAbs, rfl, .inl rfl⟩
    · obtain ⟨d, ds, hd⟩ := List.exists_cons_of_ne_nil (decimal_ne_nil n.natAbs)
      have hdigit := isDigit_decimal n.natAbs d (hd ▸ List.mem_cons_self)
      rw [Number.print, if_neg hn, hd]
      exact ⟨d, ds, rfl, .inr hdigit⟩
  have hread (rest : Bytes) := numeral_read_print n rest
  rw [hprint] at hread ⊢
  apply Prints.of_cons b tail _ (begins_number b hb)
  intro fuel rest _ hrest
  rw [Tree.read_number fuel _ b hb, ← List.cons_append, hread rest hrest]
  rfl

theorem prints_array (texts : List Bytes) (ts : List Tree) (h : List.Forall₂ Prints texts ts) :
    Prints (91 :: (commas texts ++ [93])) (.array ts) := by
  apply Prints.of_cons 91 _ _ (by decide)
  intro fuel rest hf _
  have hbegins (text : Bytes) (ht : text ∈ texts) : Begins text := by
    obtain ⟨t, hprints⟩ := forall₂_right h.flip text ht
    exact hprints.begins
  have hitems : List.Forall₂ (ReadsAs (Tree.read fuel)) texts ts := by
    have hboth := (List.forall₂_and_left texts ts).mpr ⟨length_le_commas texts, h⟩
    apply hboth.imp
    rintro text t ⟨hle, hprints⟩
    apply hprints.reads
    rw [List.length_append] at hf
    omega
  rw [Tree.read_array, List.append_assoc, List.singleton_append,
    readList_commas (.inl rfl) texts ts hitems hbegins]
  rfl

theorem begins_member (m : Text × Value) : Begins (printMember m) :=
  ⟨34, m.1.flatMap printChar ++ [34] ++ 58 :: m.2.print, rfl, by decide, by decide, by decide⟩

theorem readMember_of_key (value : Bytes → Option (Tree × Bytes)) (key : RawString)
    (rest behind : Bytes) (hkey : readString [] rest = some (key, 58 :: behind)) :
    readMember value (34 :: rest) = (value behind).map fun (t, s) => ((key, t), s) := by
  show (readString [] rest).bind _ = _
  rw [hkey]
  show (value behind).bind _ = _
  cases value behind <;> rfl

theorem readsAs_member (fuel : Nat) (m : Text × Value) (t : Tree)
    (h : ReadsAs (Tree.read fuel) m.2.print t) :
    ReadsAs (readMember (Tree.read fuel)) (printMember m) (rawText m.1, t) := by
  intro rest hrest
  have hmember : printMember m ++ rest =
      34 :: (m.1.flatMap printChar ++ 34 :: 58 :: (m.2.print ++ rest)) := by
    simp [printMember, printText]
  rw [hmember, readMember_of_key _ _ _ _ (readString_printText [] m.1 _), h rest hrest]
  rfl

theorem prints_object (members : List (Text × Value)) (raws : List (RawString × Tree))
    (h : List.Forall₂ (fun m r => r.1 = rawText m.1 ∧ Prints m.2.print r.2) members raws) :
    Prints (123 :: (commas (members.map printMember) ++ [125])) (.object raws) := by
  apply Prints.of_cons 123 _ _ (by decide)
  intro fuel rest hf _
  have hbegins : ∀ text ∈ members.map printMember, Begins text := by
    intro text ht
    obtain ⟨m, -, rfl⟩ := List.mem_map.mp ht
    exact begins_member m
  have hitems : List.Forall₂ (ReadsAs (readMember (Tree.read fuel))) (members.map printMember)
      raws := by
    have hlength (m : Text × Value) (hm : m ∈ members) :
        (printMember m).length ≤ (commas (members.map printMember)).length :=
      length_le_commas _ _ (List.mem_map_of_mem hm)
    have hboth := (List.forall₂_and_left members raws).mpr ⟨hlength, h⟩
    rw [List.forall₂_map_left_iff]
    apply hboth.imp
    rintro m ⟨raw, t⟩ ⟨hle, hraw, hprints⟩
    cases hraw
    apply readsAs_member
    apply hprints.reads
    rw [List.length_append] at hf
    rw [printMember, List.length_append, List.length_cons] at hle
    omega
  rw [Tree.read_object, List.append_assoc, List.singleton_append,
    readList_commas (.inr rfl) _ raws hitems hbegins]
  rfl

/-- A value prints as a tree that comes to it. -/
theorem exists_prints (depth : Nat) (v : Value) (hn : v.Nests depth) (hi : v.Integral) :
    ∃ t, t.value? depth = some v ∧ Prints v.print t := by
  induction hn with
  | null depth =>
    refine ⟨.null, by rw [Tree.value?], ?_⟩
    apply Prints.of_cons 110 (ascii "ull") _ (by decide)
    intro fuel rest _ _
    rw [Tree.read_null, readLiteral_append]
  | bool depth b =>
    refine ⟨.bool b, by rw [Tree.value?], ?_⟩
    cases b with
    | true =>
      apply Prints.of_cons 116 (ascii "rue") _ (by decide)
      intro fuel rest _ _
      rw [Tree.read_true, readLiteral_append]
    | false =>
      apply Prints.of_cons 102 (ascii "alse") _ (by decide)
      intro fuel rest _ _
      rw [Tree.read_false, readLiteral_append]
  | number depth n =>
    cases hi with
    | integer n hword =>
      refine ⟨.number (.ofInt n), ?_, prints_integer n⟩
      rw [Tree.value?, value?_ofInt n hword]
      rfl
  | string depth s =>
    refine ⟨.string (rawText s), ?_, prints_text s⟩
    rw [Tree.value?, text?_rawText]
    rfl
  | array depth items h ih =>
    cases hi with
    | array items hitems =>
      obtain ⟨ts, hts⟩ := exists_forall₂ items fun v hv => ih v hv (hitems v hv)
      refine ⟨.array ts, ?_, ?_⟩
      · apply (value?_array_iff depth ts _).mpr ⟨items, ?_, rfl⟩
        exact List.Forall₂.flip (hts.imp fun v t ht => ht.1)
      · have hprint : (Value.array items).print =
            91 :: (commas (items.map Value.print) ++ [93]) := by
          rw [Value.print, printItems_eq]
          rfl
        rw [hprint]
        apply prints_array
        rw [List.forall₂_map_left_iff]
        exact hts.imp fun v t ht => ht.2
  | object depth members order h ih =>
    cases hi with
    | object members hmembers =>
      have hraw (m : Text × Value) (hm : m ∈ members) : ∃ r : RawString × Tree,
          MemberValue depth r m ∧ r.1 = rawText m.1 ∧ Prints m.2.print r.2 := by
        obtain ⟨t, ht, hprints⟩ := ih m hm (hmembers m hm)
        exact ⟨(rawText m.1, t), ⟨text?_rawText m.1, ht⟩, rfl, hprints⟩
      obtain ⟨raws, hraws⟩ := exists_forall₂ members hraw
      refine ⟨.object raws, ?_, ?_⟩
      · apply (value?_object_iff depth raws _).mpr ⟨members, ?_, ?_⟩
        · exact List.Forall₂.flip (hraws.imp fun m r hr => hr.1)
        · rw [orderMembers_of_inOrder members order]
      · have hprint : (Value.object members).print =
            123 :: (commas (members.map printMember) ++ [125]) := by
          rw [Value.print, printMembers_eq]
          rfl
        rw [hprint]
        apply prints_object
        exact hraws.imp fun m r hr => hr.2

/-- A value with no numbers but integers is read from its print as itself. -/
theorem parse?_print (v : Value) (hn : v.Nests maxDepth) (hi : v.Integral) :
    Value.parse? v.print = some v := by
  obtain ⟨t, hvalue, hprints⟩ := exists_prints maxDepth v hn hi
  have hread := hprints.reads (v.print.length + 1) (Nat.lt_succ_self _) [] endsNumeral_nil
  rw [List.append_nil] at hread
  have hparse : Tree.parse? v.print = some t := by
    rw [Tree.parse?, hread]
    rfl
  rw [Value.parse?, hparse]
  exact hvalue

end NoiseGate.Json
