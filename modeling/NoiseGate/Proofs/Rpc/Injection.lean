import NoiseGate.Proofs.Json.RoundTrip
import NoiseGate.Rpc.Body

/-!
# Options are all that is added

A body is sent with options in it exactly if it is a request to initialize that leaves them open.
What is sent then means what the body means, but for the options, and is not open to others.
-/

namespace NoiseGate

namespace Json.Value

variable {depth : Nat} {members : List (Text × Value)}

theorem nests_object_iff :
    (Value.object members).Nests (depth + 1) ↔
      InOrder members ∧ ∀ m ∈ members, m.2.Nests depth := by
  constructor
  · rintro (_ | _ | _ | _ | _ | ⟨_, _, order, h⟩)
    exact ⟨order, h⟩
  · rintro ⟨order, h⟩
    exact .object depth members order h

theorem integral_object_iff : (Value.object members).Integral ↔ ∀ m ∈ members, m.2.Integral := by
  constructor
  · rintro (_ | _ | _ | _ | _ | ⟨_, h⟩)
    exact h
  · exact .object members

theorem Nests.insertMember (name : Text) {v : Value} (h : (Value.object members).Nests (depth + 1))
    (hv : v.Nests depth) : (Value.object (insertMember name v members)).Nests (depth + 1) := by
  obtain ⟨order, hmembers⟩ := nests_object_iff.mp h
  apply nests_object_iff.mpr ⟨inOrder_insertMember name v members order, ?_⟩
  intro m hm
  rcases mem_insertMember name v members m hm with rfl | hm
  · exact hv
  · exact hmembers m hm

theorem Integral.insertMember (name : Text) {v : Value} (h : (Value.object members).Integral)
    (hv : v.Integral) : (Value.object (insertMember name v members)).Integral := by
  apply integral_object_iff.mpr
  intro m hm
  rcases mem_insertMember name v members m hm with rfl | hm
  · exact hv
  · exact integral_object_iff.mp h m hm

end Json.Value

namespace Rpc

open Json

/-- The members of a request to initialize, and of its parameters, which leave the options open. -/
structure IsOpen (members params : List (Text × Value)) : Prop where
  named : members.lookup "method".toList = some (.string "initialize".toList)
  parameters : members.lookup "params".toList = some (.object params)
  unset : params.lookup "initializationOptions".toList = none ∨
    params.lookup "initializationOptions".toList = some .null

def paramsWith (options : Value) (params : List (Text × Value)) : List (Text × Value) :=
  insertMember "initializationOptions".toList options params

def requestWith (params members : List (Text × Value)) : List (Text × Value) :=
  insertMember "params".toList (.object params) members

theorem withOptions?_eq_some_iff (options request v : Value) :
    withOptions? options request = some v ↔ ∃ members params, request = .object members ∧
      IsOpen members params ∧ v = .object (requestWith (paramsWith options params) members) := by
  constructor
  · intro h
    unfold withOptions? at h
    split at h
    · rename_i method params hmethod hparams
      obtain ⟨rfl, h⟩ := Option.ite_none_right_eq_some.mp h
      cases request with
      | object members =>
        cases hfound : params.lookup "initializationOptions".toList with
        | none =>
          rw [hfound] at h
          cases h
          exact ⟨members, params, rfl, ⟨hmethod, hparams, .inl hfound⟩, rfl⟩
        | some given =>
          rw [hfound] at h
          cases given with
          | null =>
            cases h
            exact ⟨members, params, rfl, ⟨hmethod, hparams, .inr hfound⟩, rfl⟩
          | _ => cases h
      | _ => cases hparams
    · cases h
  · rintro ⟨members, params, rfl, hopen, rfl⟩
    have hmethod : (Value.object members).member? "method".toList = _ := hopen.named
    have hparams : (Value.object members).member? "params".toList = _ := hopen.parameters
    rw [withOptions?, hmethod, hparams]
    dsimp only
    rw [if_pos rfl]
    rcases hopen.unset with h | h
    · rw [h]
      rfl
    · rw [h]
      rfl

theorem inject?_eq_some_iff (options : Value) (body out : Bytes) :
    inject? options body = some out ↔ ∃ members params, Value.parse? body = some (.object members) ∧
      IsOpen members params ∧
      out = (Value.object (requestWith (paramsWith options params) members)).print := by
  rw [inject?, Option.bind_eq_bind, Option.bind_eq_some_iff]
  constructor
  · rintro ⟨request, hparse, h⟩
    obtain ⟨v, hv, h⟩ := Option.bind_eq_some_iff.mp h
    obtain ⟨members, params, rfl, hopen, rfl⟩ := (withOptions?_eq_some_iff options request v).mp hv
    cases h
    exact ⟨members, params, hparse, hopen, rfl⟩
  · rintro ⟨members, params, hparse, hopen, rfl⟩
    have hv := (withOptions?_eq_some_iff options (.object members) _).mpr
      ⟨members, params, rfl, hopen, rfl⟩
    refine ⟨.object members, hparse, ?_⟩
    rw [hv]
    rfl

/-- What is sent with options in it is read as the request with these options. -/
theorem parse?_requestWith (options : Value) (members params : List (Text × Value))
    (hoptions : options.Nests 125) (hintegral : options.Integral)
    (hn : (Value.object members).Nests maxDepth) (hi : (Value.object members).Integral)
    (hopen : IsOpen members params) :
    Value.parse? (Value.object (requestWith (paramsWith options params) members)).print =
      some (.object (requestWith (paramsWith options params) members)) := by
  have hmem := mem_of_lookup _ _ _ hopen.parameters
  have hparams : (Value.object params).Nests (125 + 1) :=
    (Value.nests_object_iff.mp hn).2 _ hmem
  have hparamsIntegral : (Value.object params).Integral := Value.integral_object_iff.mp hi _ hmem
  apply parse?_print
  · exact hn.insertMember _ (hparams.insertMember _ hoptions)
  · exact hi.insertMember _ (hparamsIntegral.insertMember _ hintegral)

theorem not_isOpen_requestWith (options : Value) (members params params' : List (Text × Value))
    (hne : options ≠ .null) :
    ¬ IsOpen (requestWith (paramsWith options params) members) params' := by
  intro h
  have hparams := h.parameters
  rw [requestWith, lookup_insertMember, if_pos rfl] at hparams
  cases hparams
  rcases h.unset with hnone | hnull
  · rw [paramsWith, lookup_insertMember, if_pos rfl] at hnone
    cases hnone
  · rw [paramsWith, lookup_insertMember, if_pos rfl] at hnull
    exact hne (Option.some.inj hnull)

/-- Options that nest at most 125 lists are put into a body exactly if its value is a request to
initialize that leaves them open. What is sent then has the same value, but for these options: under
every other name, in the request and in its parameters, stands what stood there. No options are put
into it again, unless those in it are null. -/
theorem inject?_changes_options (options : Value) (body : Bytes) (hoptions : options.Nests 125)
    (hintegral : options.Integral) (hbody : ∀ v, Value.parse? body = some v → v.Integral) :
    ((∃ out, inject? options body = some out) ↔
      ∃ members params, Value.parse? body = some (.object members) ∧ IsOpen members params) ∧
    ∀ out, inject? options body = some out →
      (∃ members params members' params', Value.parse? body = some (.object members) ∧
        IsOpen members params ∧ Value.parse? out = some (.object members') ∧
        InOrder members' ∧ InOrder params' ∧
        (∀ name, members'.lookup name =
          if name = "params".toList then some (.object params') else members.lookup name) ∧
        ∀ name, params'.lookup name =
          if name = "initializationOptions".toList then some options else params.lookup name) ∧
      (options ≠ .null → ∀ options', inject? options' out = none) := by
  constructor
  · constructor
    · rintro ⟨out, h⟩
      obtain ⟨members, params, hparse, hopen, -⟩ := (inject?_eq_some_iff options body out).mp h
      exact ⟨members, params, hparse, hopen⟩
    · rintro ⟨members, params, hparse, hopen⟩
      exact ⟨_, (inject?_eq_some_iff options body _).mpr ⟨members, params, hparse, hopen, rfl⟩⟩
  · intro out h
    obtain ⟨members, params, hparse, hopen, rfl⟩ := (inject?_eq_some_iff options body out).mp h
    have hnests : (Value.object members).Nests (126 + 1) := parse?_nests body _ hparse
    have hread := parse?_requestWith options members params hoptions hintegral hnests
      (hbody _ hparse) hopen
    obtain ⟨horder, hmembers⟩ := Value.nests_object_iff.mp hnests
    have hparams : (Value.object params).Nests (125 + 1) :=
      hmembers _ (mem_of_lookup _ _ _ hopen.parameters)
    obtain ⟨horder', -⟩ := Value.nests_object_iff.mp hparams
    refine ⟨⟨members, params, _, paramsWith options params, hparse, hopen, hread,
      inOrder_insertMember _ _ _ horder, inOrder_insertMember _ _ _ horder', ?_, ?_⟩, ?_⟩
    · intro name
      exact lookup_insertMember _ _ members name
    · intro name
      exact lookup_insertMember _ _ params name
    · intro hne options'
      rw [Option.eq_none_iff_forall_ne_some]
      intro again h'
      obtain ⟨members', params', hparse', hopen', -⟩ :=
        (inject?_eq_some_iff options' _ again).mp h'
      rw [hread] at hparse'
      cases hparse'
      exact not_isOpen_requestWith options members params params' hne hopen'

/-- Parameters given twice, the second time with null for the options. Those that are added have
escapes and bytes that are not ASCII. -/
theorem inject?_changes_null_options :
    let options := Value.object
      [("é".toList, .array [.number (.integer (-5)), .string ['"', '\n']])]
    let body := ascii "\x7b\"params\":[],\"method\":\"initialize\"," ++
      ascii "\"params\":\x7b\"initializationOptions\":null,\"x\":7\x7d\x7d"
    options.Nests 125 ∧ options.Integral ∧ (∀ v, Value.parse? body = some v → v.Integral) ∧
      ∃ out, inject? options body = some out ∧ ∀ options', inject? options' out = none := by
  intro options body
  let params : List (Text × Value) :=
    [("initializationOptions".toList, .null), ("x".toList, .number (.integer 7))]
  let members : List (Text × Value) :=
    [("method".toList, .string "initialize".toList), ("params".toList, .object params)]
  have hoptions : options.Nests 125 := by
    apply Value.Nests.object 124 _ (List.pairwise_singleton _ _)
    simp only [List.forall_mem_singleton]
    apply Value.Nests.array 123
    exact List.forall_mem_cons.mpr ⟨.number 123 _, List.forall_mem_singleton.mpr (.string 123 _)⟩
  have hintegral : options.Integral := by
    apply Value.Integral.object
    simp only [List.forall_mem_singleton]
    apply Value.Integral.array
    exact List.forall_mem_cons.mpr
      ⟨.integer (-5) (by decide), List.forall_mem_singleton.mpr (.string _)⟩
  have hparse : Value.parse? body = some (.object members) := rfl
  have hparams : (Value.object params).Integral := by
    apply Value.Integral.object
    exact List.forall_mem_cons.mpr
      ⟨.null, List.forall_mem_singleton.mpr (.integer 7 (by decide))⟩
  have hmembers : (Value.object members).Integral := by
    apply Value.Integral.object
    exact List.forall_mem_cons.mpr ⟨.string _, List.forall_mem_singleton.mpr hparams⟩
  have hbody (v : Value) (hv : Value.parse? body = some v) : v.Integral := by
    rw [hparse] at hv
    exact Option.some.inj hv ▸ hmembers
  have hopen : IsOpen members params := ⟨rfl, rfl, .inr rfl⟩
  obtain ⟨hsome, hsent⟩ := inject?_changes_options options body hoptions hintegral hbody
  obtain ⟨out, hout⟩ := hsome.mpr ⟨members, params, hparse, hopen⟩
  exact ⟨hoptions, hintegral, hbody, out, hout, (hsent out hout).2 nofun⟩

end Rpc

end NoiseGate
