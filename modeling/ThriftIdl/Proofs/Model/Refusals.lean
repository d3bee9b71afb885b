import ThriftIdl.Proofs.Model.Complaints
import ThriftIdl.Proofs.Obstruction

/-!
Why a text is no model. Reading refuses what has not the right form, names that stand twice and
references to nothing; in no text does it find a broken rule of the program.
-/

namespace ThriftIdl

theorem Document.push_ne_internal {document : Document} {definition : Definition} {fault : Fault}
    (h : document.push definition = .error fault) : fault.category ≠ .internal := by
  rw [push] at h
  split at h
  · cases h
    simp [Fault.withSource, Violation.fault, Rule.category]
  · cases h

/-- A name that is taken is no broken rule of the program. -/
theorem Fault.Redefines.ne_internal {fault : Fault} (h : fault.Redefines) :
    fault.category ≠ .internal := by
  cases h with
  | inDocument _ _ hpush => exact Document.push_ne_internal hpush
  | inNamespace _ _ hregister =>
    obtain ⟨earlier, hcategory⟩ := Target.category_of_register hregister
    simp [hcategory]

/-- Whatever the bytes, reading them finds no broken rule of the program. -/
theorem Model.decode_ne_internal {bytes : ByteArray} {contexts : List Context} {fault : Fault}
    (h : decode bytes = .error (.refused contexts (.fault fault))) : fault.category ≠ .internal := by
  rcases redefines_of_decode h with hform | ⟨_, hredefines, hends⟩
  · exact hform.elim
  · cases hends
    exact hredefines.ne_internal

end ThriftIdl
