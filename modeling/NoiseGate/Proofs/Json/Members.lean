import Mathlib.Data.List.Forall2
import NoiseGate.Json.Value

/-!
# Members of objects

The members of a value stand in the order of their names, each name once. To insert a member changes
what is found under its name and nothing else, so that of several members with one name the last is
found.
-/

namespace NoiseGate.Json

/-- Members in the order of their names, with one member for each name. -/
def InOrder (members : List (Text × Value)) : Prop := members.Pairwise fun a b => a.1 < b.1

variable (name : Text) (v : Value) (members : List (Text × Value))

theorem lookup_member_cons (other : Text) :
    ((name, v) :: members).lookup other =
      if other = name then some v else members.lookup other := by
  by_cases ho : other = name
  · rw [if_pos ho, List.lookup_cons, beq_iff_eq.mpr ho]
  · rw [if_neg ho, List.lookup_cons, beq_eq_false_iff_ne.mpr ho]

theorem lookup_insertMember (other : Text) :
    (insertMember name v members).lookup other =
      if other = name then some v else members.lookup other := by
  fun_induction insertMember name v members with
  | case1 => exact lookup_member_cons name v [] other
  | case2 w rest =>
    rw [lookup_member_cons, lookup_member_cons]
    by_cases ho : other = name
    · rw [if_pos ho, if_pos ho]
    · rw [if_neg ho, if_neg ho, if_neg ho]
  | case3 first w rest hne hlt => exact lookup_member_cons name v _ other
  | case4 first w rest hne hge ih =>
    rw [lookup_member_cons, lookup_member_cons, ih]
    by_cases ho : other = first
    · rw [if_pos ho, if_neg (ho ▸ Ne.symm hne), if_pos ho]
    · rw [if_neg ho, if_neg ho]

theorem mem_insertMember (m : Text × Value) (h : m ∈ insertMember name v members) :
    m = (name, v) ∨ m ∈ members := by
  fun_induction insertMember name v members with
  | case1 => exact .inl (List.mem_singleton.mp h)
  | case2 w rest => exact (List.mem_cons.mp h).imp_right (List.mem_cons_of_mem _)
  | case3 first w rest hne hlt => exact List.mem_cons.mp h
  | case4 first w rest hne hge ih =>
    rcases List.mem_cons.mp h with h | h
    · exact .inr (h ▸ List.mem_cons_self)
    · exact (ih h).imp_right (List.mem_cons_of_mem _)

theorem lt_of_not_lt_of_ne {a b : Text} (hge : ¬ a < b) (hne : a ≠ b) : b < a := by
  by_contra hle
  exact hne (List.le_antisymm (List.not_lt.mp hle) (List.not_lt.mp hge))

theorem inOrder_insertMember (h : InOrder members) : InOrder (insertMember name v members) := by
  fun_induction insertMember name v members with
  | case1 => exact List.pairwise_singleton _ _
  | case2 w rest =>
    obtain ⟨hfirst, hrest⟩ := List.pairwise_cons.mp h
    exact List.pairwise_cons.mpr ⟨hfirst, hrest⟩
  | case3 first w rest hne hlt =>
    obtain ⟨hfirst, -⟩ := List.pairwise_cons.mp h
    apply List.pairwise_cons.mpr ⟨?_, h⟩
    intro m hm
    rcases List.mem_cons.mp hm with rfl | hm
    · exact hlt
    · exact List.lt_trans hlt (hfirst m hm)
  | case4 first w rest hne hge ih =>
    obtain ⟨hfirst, hrest⟩ := List.pairwise_cons.mp h
    apply List.pairwise_cons.mpr ⟨?_, ih hrest⟩
    intro m hm
    rcases mem_insertMember _ _ _ m hm with rfl | hm
    · exact lt_of_not_lt_of_ne hge hne
    · exact hfirst m hm

theorem insertMember_of_last (h : ∀ m ∈ members, m.1 < name) :
    insertMember name v members = members ++ [(name, v)] := by
  fun_induction insertMember name v members with
  | case1 => rfl
  | case2 w rest => exact absurd (h _ List.mem_cons_self) (List.lt_irrefl _)
  | case3 first w rest hne hlt =>
    exact absurd (h _ List.mem_cons_self) (List.lt_asymm hlt)
  | case4 first w rest hne hge ih =>
    rw [ih fun m hm => h m (List.mem_cons_of_mem _ hm)]
    rfl

def insertMembers (ordered : List (Text × Value)) : List (Text × Value) :=
  members.foldl (fun ordered member => insertMember member.1 member.2 ordered) ordered

theorem orderMembers_eq : orderMembers members = insertMembers members [] := rfl

theorem insertMembers_cons (m : Text × Value) (ordered : List (Text × Value)) :
    insertMembers (m :: members) ordered =
      insertMembers members (insertMember m.1 m.2 ordered) := rfl

theorem inOrder_orderMembers : InOrder (orderMembers members) := by
  have hall (ordered : List (Text × Value)) (h : InOrder ordered) :
      InOrder (insertMembers members ordered) := by
    induction members generalizing ordered with
    | nil => exact h
    | cons m members ih =>
      rw [insertMembers_cons]
      exact ih _ (inOrder_insertMember m.1 m.2 ordered h)
  exact hall [] List.Pairwise.nil

theorem mem_orderMembers : ∀ m ∈ orderMembers members, m ∈ members := by
  have hall (ordered : List (Text × Value)) (m : Text × Value)
      (h : m ∈ insertMembers members ordered) : m ∈ ordered ∨ m ∈ members := by
    induction members generalizing ordered with
    | nil => exact .inl h
    | cons first members ih =>
      rw [insertMembers_cons] at h
      rcases ih _ h with h | h
      · rcases mem_insertMember _ _ _ m h with rfl | h
        · exact .inr List.mem_cons_self
        · exact .inl h
      · exact .inr (List.mem_cons_of_mem _ h)
  intro m h
  exact (hall [] m h).resolve_left List.not_mem_nil

theorem insertMembers_of_inOrder (ordered : List (Text × Value))
    (h : InOrder (ordered ++ members)) : insertMembers members ordered = ordered ++ members := by
  induction members generalizing ordered with
  | nil => exact (List.append_nil _).symm
  | cons m members ih =>
    have hlast : ∀ before ∈ ordered, before.1 < m.1 := fun before hb =>
      (List.pairwise_append.mp h).2.2 before hb m List.mem_cons_self
    rw [List.append_cons] at h
    rw [insertMembers_cons, insertMember_of_last _ _ _ hlast, List.append_cons ordered m members]
    exact ih _ h

theorem orderMembers_of_inOrder (h : InOrder members) : orderMembers members = members :=
  insertMembers_of_inOrder members [] h

theorem lookup_insertMembers (ordered : List (Text × Value)) :
    (insertMembers members ordered).lookup name =
      ((members.filter fun m => m.1 = name).getLast?.map Prod.snd).or (ordered.lookup name) := by
  induction members generalizing ordered with
  | nil => rfl
  | cons m members ih =>
    rw [insertMembers_cons, ih, lookup_insertMember]
    by_cases hm : m.1 = name
    · rw [List.filter_cons_of_pos (by simpa using hm), if_pos hm.symm, List.getLast?_cons]
      cases (members.filter fun m => m.1 = name).getLast? <;> rfl
    · rw [List.filter_cons_of_neg (by simpa using hm), if_neg (Ne.symm hm)]

/-- What is found under a name is the value of the last member that has it. -/
theorem lookup_orderMembers :
    (orderMembers members).lookup name =
      (members.filter fun m => m.1 = name).getLast?.map Prod.snd := by
  rw [orderMembers_eq, lookup_insertMembers]
  exact Option.or_none

theorem mem_of_lookup (h : members.lookup name = some v) : (name, v) ∈ members := by
  obtain ⟨before, behind, rfl, -⟩ := List.lookup_eq_some_iff.mp h
  exact List.mem_append_right _ List.mem_cons_self

/-! ### Items of trees and values -/

theorem mapM_eq_some_iff {α β : Type} (f : α → Option β) (items : List α) (results : List β) :
    items.mapM f = some results ↔ List.Forall₂ (fun a b => f a = some b) items results := by
  induction items generalizing results with
  | nil => simp [eq_comm]
  | cons a items ih =>
    rw [List.mapM_cons, Option.bind_eq_bind, Option.bind_eq_some_iff, List.forall₂_cons_left_iff]
    constructor
    · rintro ⟨b, hb, h⟩
      obtain ⟨rest, hrest, h⟩ := Option.bind_eq_some_iff.mp h
      cases h
      exact ⟨b, rest, hb, (ih rest).mp hrest, rfl⟩
    · rintro ⟨b, rest, hb, hrest, rfl⟩
      refine ⟨b, hb, ?_⟩
      rw [(ih rest).mpr hrest]
      rfl

theorem exists_forall₂ {α β : Type} {R : α → β → Prop} (items : List α)
    (h : ∀ a ∈ items, ∃ b, R a b) : ∃ results, List.Forall₂ R items results := by
  induction items with
  | nil => exact ⟨[], .nil⟩
  | cons a items ih =>
    obtain ⟨b, hb⟩ := h a List.mem_cons_self
    obtain ⟨results, hresults⟩ := ih fun other ho => h other (List.mem_cons_of_mem _ ho)
    exact ⟨b :: results, .cons hb hresults⟩

theorem forall₂_right {α β : Type} {R : α → β → Prop} {items : List α} {results : List β}
    (h : List.Forall₂ R items results) : ∀ b ∈ results, ∃ a, R a b := by
  induction h with
  | nil => exact nofun
  | cons hfirst hrest ih =>
    intro b hb
    rcases List.mem_cons.mp hb with rfl | hb
    · exact ⟨_, hfirst⟩
    · exact ih b hb

/-- A member of a tree comes to a name and a value that nests at most `depth` lists. -/
def MemberValue (depth : Nat) (m : RawString × Tree) (w : Text × Value) : Prop :=
  text? m.1 = some w.1 ∧ m.2.value? depth = some w.2

theorem value?_array_iff (depth : Nat) (items : List Tree) (v : Value) :
    (Tree.array items).value? (depth + 1) = some v ↔
      ∃ values, List.Forall₂ (fun t w => t.value? depth = some w) items values ∧
        v = .array values := by
  rw [Tree.value?, Option.map_eq_some_iff]
  simp only [mapM_eq_some_iff, eq_comm (a := v)]

theorem value?_object_iff (depth : Nat) (members : List (RawString × Tree)) (v : Value) :
    (Tree.object members).value? (depth + 1) = some v ↔
      ∃ values, List.Forall₂ (MemberValue depth) members values ∧
        v = .object (orderMembers values) := by
  have hmember (m : RawString × Tree) (w : Text × Value) :
      (do return (← text? m.1, ← m.2.value? depth) : Option (Text × Value)) = some w ↔
        MemberValue depth m w := by
    obtain ⟨name, v⟩ := w
    simp [MemberValue, Option.bind_eq_some_iff]
  rw [Tree.value?, Option.map_eq_some_iff]
  simp only [mapM_eq_some_iff, hmember, eq_comm (a := v)]

end NoiseGate.Json
