import NoiseGate.Proofs.Frame.RoundTrip
import NoiseGate.Proofs.Json.Weight
import NoiseGate.Server.Session

/-!
# The size of outgoing bodies

A body that is sent is the editor's body or a request that was read and printed again with the
options in it. If the options can be printed at all, its frame can be counted.
-/

namespace NoiseGate

open Json Header

namespace Rpc

theorem object_print_length (members : List (Text × Value)) :
    (Value.object members).print.length = membersLength members - 1 + 2 := by
  rw [Value.print, List.length_append, List.length_cons, printMembers_length]
  rfl

theorem setMember_print_length_le (name : String) (v : Value) (members : List (Text × Value)) :
    (setMember name v (.object members)).print.length ≤
      membersLength members + v.print.length + (printText name.toList).length + 3 := by
  have hinsert := membersLength_insertMember name.toList v members
  rw [setMember, object_print_length]
  rw [membersLength_cons] at hinsert
  omega

theorem setOptions_print_length_le (options : Value) (params members : List (Text × Value))
    (hp : members.lookup "params".toList = some (.object params)) :
    (setMember "params" (setMember "initializationOptions" options (.object params))
      (.object members)).print.length ≤
      2 * (Value.object members).print.length + options.print.length + 40 := by
  -- the parameters are counted twice, in the message as it was and again with the options
  have houter := setMember_print_length_le "params"
    (setMember "initializationOptions" options (.object params)) members
  have hinner := setMember_print_length_le "initializationOptions" options params
  have hobject := object_print_length members
  have hparams := object_print_length params
  have hlookup := membersLength_lookup _ _ members hp
  have hname : (printText "params".toList).length = 8 := by decide
  have hoptions : (printText "initializationOptions".toList).length = 23 := by decide
  omega

theorem withOptions?_print_length_le (options request v : Value)
    (h : withOptions? options request = some v) :
    v.print.length ≤ 2 * request.print.length + options.print.length + 40 := by
  unfold withOptions? at h
  split at h
  · rename_i method params hmethod hparams
    obtain ⟨-, h⟩ := Option.ite_none_right_eq_some.mp h
    cases request with
    | object members =>
      have hsize := setOptions_print_length_le options params members hparams
      split at h <;> cases h
      · exact hsize
      · exact hsize
    | _ => cases hparams
  · cases h

theorem inject?_length_le (options : Value) (body sent : Bytes)
    (h : inject? options body = some sent) :
    sent.length ≤ 2 * growth * body.length + options.print.length + 40 := by
  obtain ⟨request, hparse, h⟩ := Option.bind_eq_some_iff.mp h
  obtain ⟨v, hv, h⟩ := Option.bind_eq_some_iff.mp h
  cases h
  have hrequest := parse?_print_length_le body request hparse
  have hprint := withOptions?_print_length_le options request v hv
  rw [Nat.mul_assoc]
  omega

end Rpc

/-- The most bytes that one piece of memory holds. -/
def memoryMax : Nat := UInt64.size / 2 - 1

theorem outgoing_length_le (options : Option Value) (body : Bytes) (hb : body.length ≤ bodyMax)
    (ho : ∀ v ∈ options, v.print.length ≤ memoryMax) :
    (Forwarded.outgoing options body).length ≤ 2 * growth * bodyMax + memoryMax + 40 := by
  have hunchanged : body.length ≤ 2 * growth * bodyMax + memoryMax + 40 := by
    rw [growth_eq]
    omega
  cases options with
  | none => exact hunchanged
  | some v =>
    cases hinject : Rpc.inject? v body with
    | none =>
      simp only [Forwarded.outgoing, Option.bind_some, hinject]
      exact hunchanged
    | some sent =>
      have hsent := Rpc.inject?_length_le v body sent hinject
      have hv := ho v rfl
      simp only [Forwarded.outgoing, Option.bind_some, hinject, Option.getD_some]
      rw [growth_eq] at hsent ⊢
      omega

/-- Options that in print fit in memory leave the frame of every body countable. -/
theorem announces_outgoing (options : Option Value) (body : Bytes) (hb : body.length ≤ bodyMax)
    (ho : ∀ v ∈ options, v.print.length ≤ memoryMax) :
    Announces (decimal (Forwarded.outgoing options body).length) := by
  have hfits : Header.sizeOf lengthPlaces + (2 * growth * bodyMax + memoryMax + 40) ≤ wordMax := by
    decide
  have hlength := outgoing_length_le options body hb ho
  exact announces_decimal _ (Nat.le_trans (Nat.add_le_add_left hlength _) hfits)

theorem announces_exitBody : Announces (decimal Rpc.exitBody.length) :=
  announces_decimal _ (by decide)

end NoiseGate
