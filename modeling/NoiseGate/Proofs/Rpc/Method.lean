import NoiseGate.Proofs.Rpc.Injection

/-!
# Two readers of the method

The method of a body is read off its tree, as the only field of a record, and options are added on
the ground of its value. On a body that has a value both find the same method, except that a record
does not give a field twice and may be written as an array.
-/

namespace NoiseGate

namespace Json

variable {depth : Nat}

def Tree.countNamed (name : Text) : Tree → Nat
  | .object members => members.countP fun m => Json.text? m.1 = some name
  | _ => 0

theorem countNamed_object (name : Text) (members : List (RawString × Tree))
    (values : List (Text × Value)) (h : List.Forall₂ (MemberValue depth) members values) :
    (Tree.object members).countNamed name = (values.filter fun w => w.1 = name).length := by
  have hfilter : List.Forall₂ (MemberValue depth)
      (members.filter fun m => text? m.1 = some name) (values.filter fun w => w.1 = name) := by
    apply List.rel_filter _ h
    intro m w hm
    simp [hm.1]
  rw [Tree.countNamed, List.countP_eq_length_filter]
  exact hfilter.length_eq

theorem exists_eq_object (t : Tree) (members : List (Text × Value))
    (hv : t.value? depth = some (.object members)) : ∃ raws, t = .object raws := by
  cases t with
  | object raws => exact ⟨raws, rfl⟩
  | array items => cases depth <;> simp [Tree.value?] at hv
  | null => simp [Tree.value?] at hv
  | bool b => simp [Tree.value?] at hv
  | number n => simp [Tree.value?] at hv
  | string raw => simp [Tree.value?] at hv

theorem countNamed_pos (name : Text) (t : Tree) (members : List (Text × Value)) (w : Value)
    (hv : t.value? (depth + 1) = some (.object members)) (hw : members.lookup name = some w) :
    0 < t.countNamed name := by
  obtain ⟨raws, rfl⟩ := exists_eq_object t members hv
  obtain ⟨values, hvalues, heq⟩ := (value?_object_iff depth raws _).mp hv
  cases heq
  rw [lookup_orderMembers] at hw
  obtain ⟨last, hlast, -⟩ := Option.map_eq_some_iff.mp hw
  rw [countNamed_object name raws values hvalues]
  exact List.length_pos_of_mem (List.mem_of_getLast? hlast)

theorem value?_eq_string_iff (depth : Nat) (t : Tree) (s : Text) :
    t.value? depth = some (.string s) ↔ t.text? = some s := by
  cases t with
  | string raw => simp [Tree.value?, Tree.text?]
  | null => simp [Tree.value?, Tree.text?]
  | bool b => simp [Tree.value?, Tree.text?]
  | number n => simp [Tree.value?, Tree.text?]
  | array items => cases depth <;> simp [Tree.value?, Tree.text?]
  | object members => cases depth <;> simp [Tree.value?, Tree.text?]

theorem exists_named (members : List (RawString × Tree)) (values : List (Text × Value))
    (h : List.Forall₂ (MemberValue depth) members values) :
    ∃ named : List (Text × Tree),
      (members.mapM fun (name, t) => do return (← text? name, t)) = some named ∧
      List.Forall₂ (fun n w => n.1 = w.1 ∧ n.2.value? depth = some w.2) named values := by
  induction h with
  | nil => exact ⟨[], rfl, .nil⟩
  | @cons m w members values hm hrest ih =>
    obtain ⟨raw, t⟩ := m
    obtain ⟨hname, hvalue⟩ := hm
    obtain ⟨named, hnamed, hvalues⟩ := ih
    refine ⟨(w.1, t) :: named, ?_, .cons ⟨rfl, hvalue⟩ hvalues⟩
    rw [List.mapM_cons, hnamed]
    dsimp only at hname ⊢
    rw [hname]
    rfl

end Json

namespace Rpc

open Json

variable {depth : Nat}

/-- The method of a tree. -/
def methodOf? (t : Tree) : Option Text := do
  match ← t.fields? ["method"] with
  | [some t] => t.text?
  | _ => none

theorem methodOf?_array (items : List Tree) :
    methodOf? (.array items) =
      match items with
      | [t] => t.text?
      | _ => none := by
  match items with
  | [] => rfl
  | [t] => rfl
  | t :: t' :: items =>
    have hlong : ¬ (t :: t' :: items).length ≤ ["method"].length := by simp
    rw [methodOf?, Tree.fields?, if_neg hlong]
    rfl

theorem methodOf?_object (members : List (RawString × Tree)) (named : List (Text × Tree))
    (hn : (members.mapM fun (name, t) => do return (← text? name, t)) = some named) :
    methodOf? (.object members) =
      match named.filter fun n => n.1 = "method".toList with
      | [(_, t)] => t.text?
      | _ => none := by
  rw [methodOf?, Tree.fields?, hn]
  dsimp only [Option.bind_eq_bind, Option.bind_some]
  rw [List.mapM_cons, List.mapM_nil]
  generalize (named.filter fun n => n.1 = "method".toList) = found
  match found with
  | [] => rfl
  | [(name, t)] => rfl
  | (name, t) :: other :: rest => rfl

theorem methodOf?_array_iff (items : List Tree) (values : List Value)
    (h : List.Forall₂ (fun t w => t.value? depth = some w) items values) (s : Text) :
    methodOf? (.array items) = some s ↔ values = [.string s] := by
  rw [methodOf?_array]
  cases h with
  | nil => exact ⟨nofun, nofun⟩
  | @cons t w items values ht hrest =>
    cases hrest with
    | nil =>
      show t.text? = some s ↔ _
      rw [← value?_eq_string_iff depth, ht, Option.some_inj, List.cons.injEq]
      exact (and_iff_left rfl).symm
    | cons ht' hrest => exact ⟨nofun, nofun⟩

theorem methodOf?_object_iff (members : List (RawString × Tree)) (values : List (Text × Value))
    (h : List.Forall₂ (MemberValue depth) members values) (s : Text) :
    methodOf? (.object members) = some s ↔
      (Tree.object members).countNamed "method".toList = 1 ∧
        (orderMembers values).lookup "method".toList = some (.string s) := by
  obtain ⟨named, hnamed, hvalues⟩ := exists_named members values h
  have hfilter : List.Forall₂ (fun n w => n.1 = w.1 ∧ n.2.value? depth = some w.2)
      (named.filter fun n => n.1 = "method".toList)
      (values.filter fun w => w.1 = "method".toList) := by
    apply List.rel_filter _ hvalues
    intro n w hn
    simp only [hn.1]
  rw [methodOf?_object members named hnamed, countNamed_object _ members values h,
    lookup_orderMembers]
  generalize (named.filter fun n => n.1 = "method".toList) = found at hfilter ⊢
  generalize (values.filter fun w => w.1 = "method".toList) = given at hfilter ⊢
  cases hfilter with
  | nil => exact ⟨nofun, nofun⟩
  | @cons n w foundRest givenRest hn hrest =>
    cases hrest with
    | nil =>
      show n.2.text? = some s ↔ 1 = 1 ∧ some w.2 = some (.string s)
      rw [← value?_eq_string_iff depth, hn.2]
      exact (and_iff_right rfl).symm
    | cons hn' hrest => exact ⟨nofun, fun h => absurd h.1 (by simp)⟩

theorem methodOf?_iff_of_scalar (t : Tree) (v : Value) (s : Text) (hnone : methodOf? t = none)
    (hcount : t.countNamed "method".toList = 0) (harray : ∀ items, v ≠ .array items) :
    methodOf? t = some s ↔
      t.countNamed "method".toList = 1 ∧ v.member? "method".toList = some (.string s) ∨
        v = .array [.string s] := by
  rw [hnone, hcount]
  apply iff_of_false nofun
  rintro (⟨hone, -⟩ | h)
  · cases hone
  · exact harray _ h

/-- The method of a tree, as its value shows it. -/
theorem methodOf?_iff (t : Tree) (v : Value) (hv : t.value? (depth + 1) = some v) (s : Text) :
    methodOf? t = some s ↔
      t.countNamed "method".toList = 1 ∧ v.member? "method".toList = some (.string s) ∨
        v = .array [.string s] := by
  cases t with
  | object members =>
    obtain ⟨values, hvalues, rfl⟩ := (value?_object_iff depth members v).mp hv
    rw [methodOf?_object_iff members values hvalues]
    apply (or_iff_left _).symm
    intro harray
    cases harray
  | array items =>
    obtain ⟨values, hvalues, rfl⟩ := (value?_array_iff depth items v).mp hv
    rw [methodOf?_array_iff items values hvalues, Value.array.injEq]
    apply (or_iff_right _).symm
    rintro ⟨hone, -⟩
    cases hone
  | null =>
    rw [Tree.value?] at hv
    cases hv
    exact methodOf?_iff_of_scalar _ _ s rfl rfl fun items h => by cases h
  | bool b =>
    rw [Tree.value?] at hv
    cases hv
    exact methodOf?_iff_of_scalar _ _ s rfl rfl fun items h => by cases h
  | number n =>
    rw [Tree.value?] at hv
    obtain ⟨number, -, rfl⟩ := Option.map_eq_some_iff.mp hv
    exact methodOf?_iff_of_scalar _ _ s rfl rfl fun items h => by cases h
  | string raw =>
    rw [Tree.value?] at hv
    obtain ⟨text, -, rfl⟩ := Option.map_eq_some_iff.mp hv
    exact methodOf?_iff_of_scalar _ _ s rfl rfl fun items h => by cases h

/-- On a body that has a value, the method is found exactly if the body is an object that names it
once and the value under that name is a text, or an array of that text alone. So a request to which
options are added has its method found, unless it names it again. -/
theorem method?_agrees (body : Bytes) (v : Value) (hv : Value.parse? body = some v) :
    ∃ t, Tree.parse? body = some t ∧
      (∀ s, method? body = some s ↔
        t.countNamed "method".toList = 1 ∧ v.member? "method".toList = some (.string s) ∨
          v = .array [.string s]) ∧
      ∀ options out, inject? options body = some out → t.countNamed "method".toList ≤ 1 →
        method? body = some "initialize".toList := by
  obtain ⟨t, ht, hvalue⟩ := Option.bind_eq_some_iff.mp hv
  have hmethod (s : Text) : method? body = some s ↔
      t.countNamed "method".toList = 1 ∧ v.member? "method".toList = some (.string s) ∨
        v = .array [.string s] := by
    rw [show method? body = (Tree.parse? body).bind methodOf? from rfl, ht]
    exact methodOf?_iff t v hvalue s
  refine ⟨t, ht, hmethod, ?_⟩
  intro options out hinject hcount
  obtain ⟨members, params, hparse, hopen, -⟩ := (inject?_eq_some_iff options body out).mp hinject
  rw [hv] at hparse
  cases hparse
  have hpos := countNamed_pos _ t members _ hvalue hopen.named
  apply (hmethod _).mpr
  exact .inl ⟨Nat.le_antisymm hcount hpos, hopen.named⟩

/-- The name is spelled with an escape, beside a member that is given twice. -/
theorem method?_agrees_escaped :
    let body := ascii "\x7b\"id\":1,\"id\":2,\"m\\u0065thod\":\"exit\"\x7d"
    let v := Value.object
      [("id".toList, .number (.integer 2)), ("method".toList, .string "exit".toList)]
    Value.parse? body = some v ∧ ∃ t, Tree.parse? body = some t ∧
      (∀ s, method? body = some s ↔
        t.countNamed "method".toList = 1 ∧ v.member? "method".toList = some (.string s) ∨
          v = .array [.string s]) ∧
      method? body = some "exit".toList := by
  intro body v
  have hv : Value.parse? body = some v := rfl
  obtain ⟨t, ht, hmethod, -⟩ := method?_agrees body v hv
  exact ⟨hv, t, ht, hmethod, rfl⟩

end Rpc

end NoiseGate
