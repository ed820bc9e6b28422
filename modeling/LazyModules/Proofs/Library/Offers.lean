import LazyModules.Proofs.Library.Runs

/-!
# What a library has to offer

The answer to a question for a text is settled by what the library holds and by the world that it faces. Neither
another question nor a word in the report changes it.

**Results.** `offer_getOrLoad`, `offer_report`.
-/
namespace LazyModules

/-- A key that is set leaves all others alone. -/
theorem Table.find?_insert_of_ne {κ α : Type} [DecidableEq κ] (t : List (κ × α)) {k n : κ} (h : n ≠ k) (v : α) :
    find? (insert t k v) n = find? t n := by
  induction t with
  | nil => simp [insert, find?, List.lookup_cons, beq_eq_false_iff_ne.mpr h]
  | cons p t ih =>
    obtain ⟨k', v'⟩ := p
    simp only [insert]
    split
    · rename_i hk
      simp [find?, List.lookup_cons, hk, beq_eq_false_iff_ne.mpr h]
    · simp only [find?, List.lookup_cons] at ih ⊢
      split
      · rfl
      · exact ih

namespace Library

/-- The answer to a question for the text at an address. -/
def offer (l : Library) (address : String) : Outcome Accident Document := (getOrLoad address l).1

def textOutcome : Except Accident String → Outcome Accident Document
  | .ok text => .ok (.text (Text.pointsOf text))
  | .error e => .error e

/-- A text that is neither loaded nor in the snapshot comes from the world. -/
def outside (w : World) (address : String) : Except Accident String :=
  if Address.isRemote address then (w.fetch address).1 else w.disk.readText address

theorem offer_eq (l : Library) (address : String) :
    l.offer address = match Table.find? l.cache.loaded address with
      | some d => .ok d
      | none => match Table.find? l.cache.persisted (Text.pointsOf address) with
        | some d => .ok d
        | none => textOutcome (outside l.world address) := by
  have hgets := getOrLoad_gets address l
  rw [offer]
  generalize getOrLoad address l = r at hgets
  cases hgets with
  | loaded h => rw [h]
  | persisted hnew h => rw [hnew, h]
  | fetched hnew hmiss hremote h => rw [hnew, hmiss, outside, if_pos hremote, h]; rfl
  | unreachable hnew hmiss hremote h => rw [hnew, hmiss, outside, if_pos hremote, h]; rfl
  | read hnew hmiss hlocal h => rw [hnew, hmiss, outside, hlocal, if_neg (by decide), h]; rfl
  | unreadable hnew hmiss hlocal h => rw [hnew, hmiss, outside, hlocal, if_neg (by decide), h]; rfl

theorem offer_of_loaded {l : Library} {address : String} {d : Document}
    (h : Table.find? l.cache.loaded address = some d) : l.offer address = .ok d := by
  rw [offer_eq, h]

theorem offer_report (l : Library) (r : Report) (address : String) :
    { l with report := r }.offer address = l.offer address := by
  rw [offer_eq, offer_eq]

/-- A question for one text does not change the answer for any. -/
theorem offer_getOrLoad (l : Library) (address name : String) :
    (getOrLoad address l).2.offer name = l.offer name := by
  have hgets := getOrLoad_gets address l
  have hoffer : l.offer address = (getOrLoad address l).1 := rfl
  generalize getOrLoad address l = r at hgets hoffer
  by_cases hname : name = address
  · subst hname
    cases hgets with
    | loaded h => rfl
    | persisted | fetched | read =>
      rw [hoffer]
      exact offer_of_loaded ((Table.find?_insert ..).trans (if_pos rfl))
    | unreachable => rw [offer_eq, offer_eq]; rfl
    | unreadable => rw [offer_eq, offer_eq]
  · have hkey : Text.pointsOf name ≠ Text.pointsOf address := fun h => hname (Document.pointsOf_injective h)
    cases hgets with
    | loaded h => rfl
    | persisted | read => rw [offer_eq, offer_eq, Table.find?_insert_of_ne _ hname]
    | fetched =>
      rw [offer_eq, offer_eq, Table.find?_insert_of_ne _ hname, Table.find?_insert_of_ne _ hkey]
      rfl
    | unreachable => rw [offer_eq, offer_eq]; rfl
    | unreadable => rw [offer_eq, offer_eq]

end Library

end LazyModules
