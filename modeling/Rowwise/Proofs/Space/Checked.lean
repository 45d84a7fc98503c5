import Rowwise.Space.Invoker

/-! Handles as they are made, and the checks of them before a call. -/
namespace Rowwise

namespace Handle

variable {t : LoadedType} {h : Handle}

theorem find_ok {fits : Declared → Bool} {wanted : String} (found : find t fits wanted = .ok h) :
    h.owner = t ∧ h.granted = false := by
  unfold find at found
  split at found
  · cases found
    exact ⟨rfl, rfl⟩
  · cases found

/-- A handle is made without access. -/
theorem select_ok {selector : Selector} (selected : select t selector = .ok h) :
    h.owner = t ∧ h.granted = false := by
  cases selector with
  | first => exact find_ok selected
  | named name => exact find_ok selected
  | overload name descriptor => exact find_ok selected

/-- Behind a handle on a method of a class stands a method with that signature. -/
theorem method_of_class {c : Class} {bytes : List UInt8} {space : SpaceId}
    (made : h.owner = .ofClass c bytes space) :
    ∃ m, c.methods[h.index.val]? = some m ∧ m.toSignature = h.method.toSignature := by
  obtain ⟨owner, index, granted⟩ := h
  cases made
  have there : (LoadedType.ofClass c bytes space).methods[index.val]? = some _ :=
    List.getElem?_eq_getElem index.isLt
  rw [LoadedType.ofClass, List.getElem?_map] at there
  obtain ⟨m, found, same⟩ := Option.map_eq_some_iff.mp there
  exact ⟨m, found, congrArg Declared.toSignature same⟩

/-- What is looked for is found if some method fits, and then it is the first that does. -/
theorem find_first (t : LoadedType) (fits : Declared → Bool) (wanted : String)
    {index : Fin t.methods.length} (fit : fits t.methods[index] = true) :
    ∃ first : Fin t.methods.length, find t fits wanted = .ok { owner := t, index := first } ∧
      fits t.methods[first] = true ∧ ∀ j < first, ¬ fits t.methods[j] = true := by
  unfold find
  cases found : t.methods.findFinIdx? fits with
  | none => exact absurd fit (List.findFinIdx?_eq_none_iff.mp found _ (List.getElem_mem _))
  | some first => exact ⟨first, rfl, List.findFinIdx?_eq_some_iff.mp found⟩

/-- The same handle of a type that does something else. -/
def withBody (body : Body) (h : Handle) : Handle :=
  ⟨{ h.owner with body }, h.index, h.granted⟩

end Handle

namespace Invoker

variable {i : Invoker} {h : Handle} {e : Error}

theorem check_ok (own : h.owner.space = i.space) (accessible : h.isAccessible = true) :
    i.check h = .ok () := by
  simp [check, own, accessible]

theorem check_foreign (other : h.owner.space ≠ i.space) :
    i.check h = .error (.foreignHandle i.space h.owner.space) := by
  rw [check, if_pos other]

theorem check_denied (own : h.owner.space = i.space) (denied : ¬ h.isAccessible = true) :
    i.check h = .error (.accessDenied h.qualifiedName) := by
  rw [check, if_neg (Classical.not_not.mpr own), if_pos (by simpa using denied)]

theorem invokeRow_of_check (refused : i.check h = .error e) (fuel : Nat) (args : List Value) :
    i.invokeRow fuel h args = some (.error e) := by
  rw [invokeRow, refused]

theorem invokeInto_of_check (refused : i.check h = .error e) (fuel : Nat) (outputs : List Value)
    (b : Batch) : i.invokeInto fuel h outputs b = some (outputs, .error e) := by
  rw [invokeInto, refused]

theorem invokeAll_of_check (refused : i.check h = .error e) (fuel : Nat) (b : Batch) :
    i.invokeAll fuel h b = some (.error e) := by
  rw [invokeAll, invokeInto_of_check refused]
  rfl

end Invoker

end Rowwise
