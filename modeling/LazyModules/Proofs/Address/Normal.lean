import Mathlib.Data.List.TakeWhile
import LazyModules.Proofs.Address.Remote

/-!
# Normal paths

What a path names is up to how many leading slashes it keeps and to its segments that are not empty, one after the
other. Normalising keeps the slashes, and takes the segments as they come: each is kept, dropped, or takes back the one
before it. What is left is spelled with one slash between each two segments, and is read back as it was.

**Results.**
* `normalize_congr`: paths with the same slashes, and segments that come to the same, are spelled alike.
* `Kept.foldl_push`: a normal path comes to itself, segment by segment.
* `rootSlashes_normalize`, `names_normalize`: what is read back from the spelling.
* `folder_cases`: the folder of a path, and what it leaves out.
-/
namespace LazyModules

namespace Path

/-- The segments of a path that are not empty. -/
def names (p : List Char) : List Segment := (Text.split '/' p).filter (· ≠ [])

theorem names_append_slash (p q : List Char) : names (p ++ '/' :: q) = names p ++ names q := by
  simp [names, Text.split_append]

theorem names_cons_slash (q : List Char) : names ('/' :: q) = names q := names_append_slash [] q

theorem names_replicate (k : Nat) : names (List.replicate k '/') = [] := by
  induction k with
  | zero => rfl
  | succ k ih => rw [List.replicate_succ, names_cons_slash, ih]

theorem names_of_not_mem {s : List Char} (hs : '/' ∉ s) : names s = if s = [] then [] else [s] := by
  rw [names, Text.split_of_not_mem hs]
  by_cases h : s = [] <;> simp [h]

theorem names_append_replicate (p : List Char) (k : Nat) : names (p ++ List.replicate k '/') = names p := by
  cases k with
  | zero => rw [List.replicate_zero, List.append_nil]
  | succ k => rw [List.replicate_succ, names_append_slash, names_replicate, List.append_nil]

/-! ## Segments in turn -/

variable {rooted : Bool} {done : List Segment}

theorem push_nil : push rooted done [] = done := by simp [push]

/-- A segment is dropped, kept, or takes back the one before it. -/
theorem push_cases (rooted : Bool) (done : List Segment) (s : Segment) :
    push rooted done s = done ∨ push rooted done s = s :: done ∨ push rooted done s = done.tail := by
  unfold push
  split
  · exact .inl rfl
  · split
    · exact .inr (.inl rfl)
    · cases done with
      | nil => cases rooted <;> simp
      | cons d done =>
        simp only
        split
        · exact .inr (.inl rfl)
        · exact .inr (.inr rfl)

/-- Empty segments make no difference. -/
theorem foldl_push_names (rooted : Bool) (done : List Segment) (p : List Char) :
    (names p).foldl (push rooted) done = (Text.split '/' p).foldl (push rooted) done := by
  rw [names, List.foldl_filter]
  congr
  funext done s
  by_cases hs : s = []
  · simp [hs, push_nil]
  · simp [hs]

/-- Segments, the last one first, each of which is kept where it stands. -/
def Kept (rooted : Bool) : List Segment → Prop
  | [] => True
  | s :: done => push rooted done s = s :: done ∧ Kept rooted done

theorem Kept.push (h : Kept rooted done) (s : Segment) : Kept rooted (push rooted done s) := by
  rcases push_cases rooted done s with hs | hs | hs
  · rwa [hs]
  · rw [hs]
    exact ⟨hs, h⟩
  · rw [hs]
    cases done with
    | nil => exact h
    | cons d done => exact h.2

theorem Kept.foldl (h : Kept rooted done) (segments : List Segment) :
    Kept rooted (segments.foldl (Path.push rooted) done) := by
  induction segments generalizing done with
  | nil => exact h
  | cons s segments ih => exact ih (h.push s)

/-- A normal path comes to itself. -/
theorem Kept.foldl_push (h : Kept rooted done) : done.reverse.foldl (Path.push rooted) [] = done := by
  induction done with
  | nil => rfl
  | cons s done ih => rw [List.reverse_cons, List.foldl_append, ih h.2, List.foldl_cons, h.1, List.foldl_nil]

theorem normalSegments_eq (p : List Char) :
    normalSegments p = ((names p).foldl (push (0 < rootSlashes p)) []).reverse := by
  rw [normalSegments, foldl_push_names]

/-- Paths with the same slashes, and segments that come to the same, are spelled alike. -/
theorem normalize_congr {p q : List Char} (hslashes : rootSlashes p = rootSlashes q)
    (hnames : (names p).foldl (push (0 < rootSlashes q)) [] = (names q).foldl (push (0 < rootSlashes q)) []) :
    normalize p = normalize q := by
  have hsegments : normalSegments p = normalSegments q := by
    rw [normalSegments_eq, normalSegments_eq, hslashes, hnames]
  rw [normalize, normalize, hslashes, hsegments]

/-! ## Leading slashes -/

def Rooted (p : List Char) : Prop := p.head? = some '/'

theorem not_rooted_of_not_mem {p : List Char} (hp : '/' ∉ p) : ¬ Rooted p := fun h => hp (List.mem_of_head? h)

theorem not_rooted_cons {c : Char} (hc : c ≠ '/') (p : List Char) : ¬ Rooted (c :: p) := by
  simpa [Rooted] using hc

/-- The slashes at the front of a path, and what comes after them. -/
theorem exists_slashes (p : List Char) : ∃ k q, ¬ Rooted q ∧ p = List.replicate k '/' ++ q := by
  induction p with
  | nil => exact ⟨0, [], by simp [Rooted], rfl⟩
  | cons c p ih =>
    by_cases hc : c = '/'
    · obtain ⟨k, q, hq, rfl⟩ := ih
      exact ⟨k + 1, q, hq, by simp [hc, List.replicate_succ]⟩
    · exact ⟨0, c :: p, not_rooted_cons hc p, rfl⟩

/-- How many of some leading slashes are kept: two of two, and one of more. -/
def keptSlashes : Nat → Nat
  | 0 => 0
  | 2 => 2
  | _ => 1

theorem rootSlashes_eq (k : Nat) {q : List Char} (hq : ¬ Rooted q) :
    rootSlashes (List.replicate k '/' ++ q) = keptSlashes k := by
  match k with
  | k + 3 => simp [List.replicate_succ, rootSlashes, keptSlashes]
  | 0 | 1 | 2 =>
    cases q with
    | nil => rfl
    | cons d q =>
      have hd : d ≠ '/' := by simpa [Rooted] using hq
      simp [List.replicate_succ, rootSlashes, keptSlashes, hd]

theorem rootSlashes_of_not_rooted {p : List Char} (hp : ¬ Rooted p) : rootSlashes p = 0 := rootSlashes_eq 0 hp

theorem keptSlashes_rootSlashes (p : List Char) : keptSlashes (rootSlashes p) = rootSlashes p := by
  obtain ⟨k, q, hq, rfl⟩ := exists_slashes p
  rw [rootSlashes_eq k hq]
  match k with
  | 0 | 1 | 2 | k + 3 => rfl

/-! ## Spelling -/

theorem names_join {segments : List Segment} (hsegments : ∀ s ∈ segments, Proper s) :
    names (Text.join '/' segments) = segments := by
  induction segments with
  | nil => rfl
  | cons s segments ih =>
    obtain ⟨hne, hslash⟩ := hsegments s (List.mem_cons_self ..)
    have hs : names s = [s] := by rw [names_of_not_mem hslash, if_neg hne]
    cases segments with
    | nil => exact hs
    | cons t segments =>
      have hrest := ih fun u hu => hsegments u (List.mem_cons_of_mem _ hu)
      rw [Text.join, names_append_slash, hs, hrest, List.singleton_append]
      simp

theorem names_replicate_append (k : Nat) (p : List Char) : names (List.replicate k '/' ++ p) = names p := by
  induction k with
  | zero => rw [List.replicate_zero, List.nil_append]
  | succ k ih => rw [List.replicate_succ, List.cons_append, names_cons_slash, ih]

theorem normalize_of_segments {p : List Char} (hp : normalSegments p ≠ []) :
    normalize p = List.replicate (rootSlashes p) '/' ++ Text.join '/' (normalSegments p) := by
  unfold normalize
  split
  · rename_i hnil
    have hnames := names_join (normalSegments_proper p)
    rw [(List.append_eq_nil_iff.mp hnil).2] at hnames
    exact absurd hnames.symm hp
  · rfl

/-- The spelling of a path has the slashes that the path keeps. -/
theorem rootSlashes_normalize (p : List Char) : rootSlashes (normalize p) = rootSlashes p := by
  have hspelled (q : List Char) (hq : ¬ Rooted q) :
      rootSlashes (List.replicate (rootSlashes p) '/' ++ q) = rootSlashes p := by
    rw [rootSlashes_eq _ hq, keptSlashes_rootSlashes]
  have hjoin := hspelled _ (join_singleSlashes (normalSegments_proper p)).2
  unfold normalize
  split
  · rename_i hnil
    rw [hnil] at hjoin
    exact hjoin
  · exact hjoin

/-- The spelling of a path is read back as the segments that are left of it. -/
theorem names_normalize {p : List Char} (hp : normalSegments p ≠ []) : names (normalize p) = normalSegments p := by
  rw [normalize_of_segments hp, names_replicate_append, names_join (normalSegments_proper p)]

/-! ## Folders -/

/-- The folder of a path without slashes is empty. Of any other path it is what comes before the last slash, without
slashes at its end, or the leading slashes if there is nothing else. -/
theorem folder_cases (p : List Char) :
    '/' ∉ p ∧ folder p = [] ∨ ∃ h l, '/' ∉ l ∧ p = h ++ '/' :: l ∧
      ((∃ k, h = List.replicate k '/' ∧ folder p = List.replicate (k + 1) '/') ∨
        ∃ f c k, c ≠ '/' ∧ h = f ++ c :: List.replicate k '/' ∧ folder p = f ++ [c]) := by
  by_cases hp : '/' ∈ p
  · -- read from its end, the path has its last slash first
    obtain ⟨l, h, hsplit, hl⟩ := List.eq_append_cons_of_mem (List.mem_reverse.mpr hp)
    have hhead : p.reverse.dropWhile (· ≠ '/') = '/' :: h := by
      rw [hsplit, List.dropWhile_append_of_pos fun c hc => by
        simpa using fun hslash : c = '/' => hl (hslash ▸ hc)]
      simp
    have hpath : p = h.reverse ++ '/' :: l.reverse := by
      rw [← List.reverse_reverse p, hsplit]
      simp
    obtain ⟨k, q, hq, rfl⟩ := exists_slashes h
    have htrimmed : ('/' :: (List.replicate k '/' ++ q)).dropWhile (· = '/') = q := by
      rw [← List.cons_append, ← List.replicate_succ, List.dropWhile_append_of_pos (by simp)]
      cases q with
      | nil => rfl
      | cons c q => simp [show c ≠ '/' by simpa [Rooted] using hq]
    refine .inr ⟨_, _, by simpa using hl, hpath, ?_⟩
    simp only [folder, hhead, List.reverse_reverse, htrimmed]
    cases q with
    | nil => exact .inl ⟨k, by simp, by simp [List.replicate_succ']⟩
    | cons c q => exact .inr ⟨q.reverse, c, k, by simpa [Rooted] using hq, by simp, by simp⟩
  · have hhead : p.reverse.dropWhile (· ≠ '/') = [] := by
      rw [List.dropWhile_eq_nil_iff]
      intro c hc
      simpa using fun hslash : c = '/' => hp (hslash ▸ List.mem_reverse.mp hc)
    exact .inl ⟨hp, by simp only [folder, hhead, List.reverse_nil, List.dropWhile_nil]⟩

end Path

end LazyModules
