import LazyModules.Table

/-!
# Tables

What a table holds after a key was set, and where a value that is found comes from.
-/
namespace LazyModules.Table

variable {α : Type}

theorem find?_cons (n : String) (x : α) (t : Table α) (k : String) :
    find? ((n, x) :: t) k = if k = n then some x else find? t k := by
  by_cases h : k = n <;> simp [find?, List.lookup_cons, h, beq_eq_false_iff_ne.mpr]

theorem find?_insert (t : Table α) (k : String) (v : α) (n : String) :
    find? (insert t k v) n = if n = k then some v else find? t n := by
  induction t with
  | nil => exact find?_cons k v [] n
  | cons p t ih =>
    obtain ⟨n', x⟩ := p
    simp only [insert]
    split
    · rename_i h
      simp only [find?_cons, h]
      split <;> rfl
    · rename_i h
      simp only [find?_cons, ih]
      by_cases hn : n = k <;> simp [hn, Ne.symm h]

/-- What is found under a key is in the table. -/
theorem mem_of_find? {t : Table α} {k : String} {v : α} (h : find? t k = some v) : (k, v) ∈ t := by
  induction t with
  | nil => cases h
  | cons p t ih =>
    obtain ⟨n, x⟩ := p
    rw [find?_cons] at h
    split at h
    · rename_i hk
      obtain rfl := Option.some.inj h
      exact hk ▸ List.mem_cons_self ..
    · exact List.mem_cons_of_mem _ (ih h)

theorem find?_eq_none_iff {t : Table α} {k : String} : find? t k = none ↔ k ∉ keys t := by
  induction t with
  | nil => simp [find?, keys]
  | cons p t ih =>
    obtain ⟨n, x⟩ := p
    rw [find?_cons]
    by_cases h : k = n
    · simp [h, keys]
    · simpa [h, keys] using ih

/-- A key is found under the value that it stands with, if it stands there once. -/
theorem find?_of_mem {t : Table α} (hkeys : (keys t).Nodup) {p : String × α} (hp : p ∈ t) :
    find? t p.1 = some p.2 := by
  induction t with
  | nil => cases hp
  | cons q t ih =>
    obtain ⟨hq, hkeys⟩ := List.nodup_cons.mp hkeys
    rw [find?_cons]
    rcases List.mem_cons.mp hp with rfl | hp
    · simp
    · have hne : p.1 ≠ q.1 := fun heq => hq (heq ▸ List.mem_map_of_mem hp)
      rw [if_neg hne, ih hkeys hp]

/-- A new key goes to the end. -/
theorem insert_of_not_mem {t : Table α} {k : String} (hk : k ∉ keys t) (v : α) :
    insert t k v = t ++ [(k, v)] := by
  induction t with
  | nil => rfl
  | cons p t ih =>
    have hne : p.1 ≠ k := fun hp => hk (by simp [keys, hp])
    rw [insert, if_neg hne, ih fun hmem => hk (List.mem_cons_of_mem _ hmem), List.cons_append]

/-- What is in a table with a key set was there before or is the new value. -/
theorem mem_insert {t : Table α} {k : String} {v : α} {p : String × α} (h : p ∈ insert t k v) :
    p ∈ t ∨ p = (k, v) := by
  induction t with
  | nil => exact .inr (List.mem_singleton.mp h)
  | cons q t ih =>
    obtain ⟨n, x⟩ := q
    simp only [insert] at h
    split at h
    · rename_i hk
      rcases List.mem_cons.mp h with rfl | h
      · exact .inr (by rw [hk])
      · exact .inl (List.mem_cons_of_mem _ h)
    · rcases List.mem_cons.mp h with rfl | h
      · exact .inl (List.mem_cons_self ..)
      · exact (ih h).imp (List.mem_cons_of_mem _) id

/-- A key that no entry sets. -/
theorem find?_insertAll_of_not_mem {t ps : Table α} {k : String} (h : k ∉ keys ps) :
    find? (insertAll t ps) k = find? t k := by
  induction ps generalizing t with
  | nil => rfl
  | cons p ps ih =>
    rw [keys, List.map_cons, List.mem_cons, not_or] at h
    change find? (insertAll (insert t p.1 p.2) ps) k = _
    rw [ih h.2, find?_insert, if_neg h.1]

/-- A key that one entry sets. -/
theorem find?_insertAll_of_mem {t ps : Table α} (hnodup : (keys ps).Nodup) {k : String} {v : α}
    (h : (k, v) ∈ ps) : find? (insertAll t ps) k = some v := by
  induction ps generalizing t with
  | nil => cases h
  | cons p ps ih =>
    obtain ⟨hp, hps⟩ := List.nodup_cons.mp hnodup
    change find? (insertAll (insert t p.1 p.2) ps) k = _
    rcases List.mem_cons.mp h with rfl | h
    · rw [find?_insertAll_of_not_mem hp, find?_insert, if_pos rfl]
    · exact ih hps h

/-- Everything in the first table is in the second one, as it was. -/
def Gains (t t' : Table α) : Prop := ∀ k v, find? t k = some v → find? t' k = some v

theorem Gains.refl (t : Table α) : Gains t t := fun _ _ => id

theorem Gains.trans {t t' t'' : Table α} (h : Gains t t') (h' : Gains t' t'') : Gains t t'' :=
  fun k v hk => h' k v (h k v hk)

/-- A key that is new to a table. -/
theorem Gains.insert {t : Table α} {k : String} (hk : find? t k = none) (v : α) : Gains t (insert t k v) := by
  intro n x hn
  rw [find?_insert]
  split
  · rename_i h
    rw [h, hk] at hn
    cases hn
  · exact hn

end LazyModules.Table
