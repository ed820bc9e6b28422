import LazyModules.Proofs.Address.Relative

/-!
# Canonical addresses

A local address is the key under which a module is remembered, so all the ways to spell a path have to come out as
one. What comes out is canonical: behind its leading slashes no segment is empty, none is `.` unless that is all there
is, and `..` stands at the front of a relative path only. Whether it is rooted is up to the specifier, if that is
rooted itself, and else to the module that imports.

**Results.**
* `Kept.all_up`: before a `..` that is kept there is nothing else, and the path is relative.
* `normalize_canonical`, `normalize_normalize`: what normalising makes of a path, and that it does so at once.
* `rooted_normalize`, `rooted_append`, `rooted_folder`: what keeps its footing.
* `Address.resolve_canonical`: the address of a local specifier.
-/
namespace LazyModules

namespace Text

/-- Pieces without the separator are read back as they were. -/
theorem split_join {sep : Char} {pieces : List (List Char)} (hne : pieces ≠ []) (hpieces : ∀ p ∈ pieces, sep ∉ p) :
    split sep (join sep pieces) = pieces := by
  induction pieces with
  | nil => exact absurd rfl hne
  | cons p pieces ih =>
    have hp : sep ∉ p := hpieces p (List.mem_cons_self ..)
    cases pieces with
    | nil => exact split_of_not_mem hp
    | cons q pieces =>
      have hrest := ih (List.cons_ne_nil q pieces) fun r hr => hpieces r (List.mem_cons_of_mem _ hr)
      rw [join, split_append, split_of_not_mem hp, hrest, List.singleton_append]
      exact List.cons_ne_nil q pieces

end Text

namespace Path

variable {rooted : Bool} {done : List Segment} {f p : List Char}

/-! ## What is canonical -/

/-- The segments of a path behind its leading slashes, if anything is behind them. -/
def segmentsBehind (p : List Char) : List Segment :=
  match p.dropWhile (· = '/') with
  | [] => []
  | q => Text.split '/' q

/-- A path with nothing in it that could be left out. -/
structure Canonical (p : List Char) : Prop where
  ne_nil : p ≠ []
  no_empty : [] ∉ segmentsBehind p
  here_alone : here ∈ segmentsBehind p → p = here
  /-- what stands before a `..` is another one, and the path is relative -/
  up_leading : ∀ front back, segmentsBehind p = front ++ up :: back → (∀ s ∈ front, s = up) ∧ ¬ Rooted p

theorem segmentsBehind_slashes (k : Nat) {q : List Char} (hq : ¬ Rooted q) :
    segmentsBehind (List.replicate k '/' ++ q) = if q = [] then [] else Text.split '/' q := by
  have hdrop : (List.replicate k '/' ++ q).dropWhile (· = '/') = q := by
    rw [List.dropWhile_append_of_pos (by simp)]
    cases q with
    | nil => rfl
    | cons c q => exact List.dropWhile_cons_of_neg (by simpa [Rooted] using hq)
  rw [segmentsBehind, hdrop]
  cases q <;> rfl

/-- Behind its slashes, a spelling has the segments that it was made from. -/
theorem segmentsBehind_join (k : Nat) {segments : List Segment} (hsegments : ∀ s ∈ segments, Proper s) :
    segmentsBehind (List.replicate k '/' ++ Text.join '/' segments) = segments := by
  rw [segmentsBehind_slashes k (join_singleSlashes hsegments).2]
  by_cases hnil : segments = []
  · rw [hnil]
    rfl
  · have hsplit := Text.split_join hnil fun s hs => (hsegments s hs).2
    have hjoin : Text.join '/' segments ≠ [] := by
      intro hempty
      rw [hempty] at hsplit
      have hproper := hsegments [] (hsplit ▸ List.mem_singleton_self [])
      exact hproper.1 rfl
    rw [if_neg hjoin, hsplit]

/-! ## What is kept -/

/-- A segment that is kept is neither empty nor `.`. A `..` is kept behind another one, or where a relative path begins. -/
theorem kept_segment {s : Segment} (h : push rooted done s = s :: done) :
    s ≠ [] ∧ s ≠ here ∧ (s = up → done = [] ∧ rooted = false ∨ ∃ ds, done = up :: ds) := by
  unfold push at h
  split at h
  · exact absurd h.symm (List.cons_ne_self s done)
  · rename_i hname
    rw [Bool.or_eq_true, decide_eq_true_eq, decide_eq_true_eq, not_or] at hname
    refine ⟨hname.1, hname.2, fun hup => ?_⟩
    rw [if_neg (not_not.mpr hup)] at h
    cases done with
    | nil =>
      cases rooted with
      | true => cases h
      | false => exact .inl ⟨rfl, rfl⟩
    | cons d ds =>
      simp only at h
      split at h
      · rename_i hd
        exact .inr ⟨ds, by rw [hd]⟩
      · have hlength := congrArg List.length h
        simp only [List.length_cons] at hlength
        omega

/-- Before a `..` that is kept there is nothing else, and the path is relative. -/
theorem Kept.all_up (h : Kept rooted (up :: done)) : rooted = false ∧ ∀ s ∈ done, s = up := by
  induction done with
  | nil =>
    rcases (kept_segment h.1).2.2 rfl with ⟨-, hrelative⟩ | ⟨ds, hds⟩
    · exact ⟨hrelative, by simp⟩
    · cases hds
  | cons d ds ih =>
    rcases (kept_segment h.1).2.2 rfl with ⟨hnil, -⟩ | ⟨ds', hds⟩
    · cases hnil
    · obtain ⟨rfl, rfl⟩ := List.cons.inj hds
      obtain ⟨hrelative, hall⟩ := ih h.2
      exact ⟨hrelative, by simpa using hall⟩

theorem Kept.of_append {before after : List Segment} (h : Kept rooted (after ++ before)) : Kept rooted before := by
  induction after with
  | nil => exact h
  | cons s after ih => exact ih h.2

theorem Kept.mem {s : Segment} (h : Kept rooted done) (hs : s ∈ done) : s ≠ [] ∧ s ≠ here := by
  obtain ⟨after, before, rfl⟩ := List.append_of_mem hs
  have hkept := kept_segment h.of_append.1
  exact ⟨hkept.1, hkept.2.1⟩

/-! ## What normalising makes -/

theorem kept_normalSegments (p : List Char) : Kept (0 < rootSlashes p) (normalSegments p).reverse := by
  have hnothing : Kept (0 < rootSlashes p) [] := trivial
  rw [normalSegments, List.reverse_reverse]
  exact hnothing.foldl _

/-- A spelling without segments: the leading slashes, or `.` if there are none. -/
theorem normalize_of_no_segments (hp : normalSegments p = []) :
    normalize p = if rootSlashes p = 0 then here else List.replicate (rootSlashes p) '/' := by
  rw [normalize, hp]
  cases rootSlashes p <;> simp [Text.join, List.replicate_succ]

theorem rooted_normalize : Rooted (normalize p) ↔ Rooted p := by
  rw [rooted_iff_rootSlashes, rootSlashes_normalize, rooted_iff_rootSlashes]

theorem segmentsBehind_normalize (hp : normalSegments p ≠ []) : segmentsBehind (normalize p) = normalSegments p := by
  rw [normalize_of_segments hp, segmentsBehind_join _ (normalSegments_proper p)]

theorem canonical_here : Canonical here := by
  have hbehind : segmentsBehind here = [here] := by decide
  refine ⟨by decide, by decide, fun _ => rfl, fun front back hsegments => ?_⟩
  rw [hbehind] at hsegments
  have hup : up ∈ [here] := hsegments ▸ List.mem_append_right front (List.mem_cons_self ..)
  exact absurd hup (by decide)

theorem canonical_slashes {k : Nat} (hk : k ≠ 0) : Canonical (List.replicate k '/') := by
  have hbehind : segmentsBehind (List.replicate k '/') = [] := by
    have hjoin := @segmentsBehind_join k [] (by simp)
    rwa [Text.join, List.append_nil] at hjoin
  refine ⟨by simpa using hk, by simp [hbehind], by simp [hbehind], fun front back hsegments => ?_⟩
  rw [hbehind] at hsegments
  simp at hsegments

/-- What normalising makes of a path is canonical. -/
theorem normalize_canonical (p : List Char) : Canonical (normalize p) := by
  by_cases hp : normalSegments p = []
  · rw [normalize_of_no_segments hp]
    split
    · exact canonical_here
    · rename_i hslashes
      exact canonical_slashes hslashes
  · have hbehind := segmentsBehind_normalize hp
    have hkept := kept_normalSegments p
    refine ⟨?_, ?_, ?_, ?_⟩
    · intro hnil
      rw [hnil] at hbehind
      exact hp hbehind.symm
    · rw [hbehind]
      exact fun hmem => (hkept.mem (List.mem_reverse.mpr hmem)).1 rfl
    · rw [hbehind]
      exact fun hmem => absurd rfl (hkept.mem (List.mem_reverse.mpr hmem)).2
    · intro front back hsegments
      rw [hbehind] at hsegments
      rw [hsegments, List.reverse_append, List.reverse_cons, List.append_assoc] at hkept
      obtain ⟨hrelative, hall⟩ := hkept.of_append.all_up
      refine ⟨fun s hs => hall s (List.mem_reverse.mpr hs), ?_⟩
      rw [rooted_normalize, rooted_iff_rootSlashes]
      exact of_decide_eq_false hrelative

/-- Normalising a second time changes nothing. -/
theorem normalize_normalize (p : List Char) : normalize (normalize p) = normalize p := by
  refine normalize_congr (rootSlashes_normalize p) ?_
  have hpushed : (names p).foldl (push (0 < rootSlashes p)) [] = (normalSegments p).reverse := by
    rw [normalSegments_eq, List.reverse_reverse]
  rw [hpushed]
  by_cases hp : normalSegments p = []
  · rw [hp, normalize_of_no_segments hp]
    split
    · rw [names_of_not_mem (by decide)]
      rfl
    · rw [names_replicate]
      rfl
  · rw [names_normalize hp]
    have hkept := (kept_normalSegments p).foldl_push
    rwa [List.reverse_reverse] at hkept

/-! ## Footing -/

theorem rooted_folder : Rooted (folder p) ↔ Rooted p := by
  rw [rooted_iff_rootSlashes, rootSlashes_folder, rooted_iff_rootSlashes]

/-- A path that is not rooted has the footing of its folder. -/
theorem rooted_append (hp : ¬ Rooted p) : Rooted (append f p) ↔ Rooted f := by
  rw [rooted_iff_rootSlashes, rootSlashes_append hp, rooted_iff_rootSlashes]

end Path

/-! ## Addresses -/

namespace Address

/-- Local addresses are canonical. From a local module, every specifier that is neither empty nor remote leads to an
address: a canonical one, which normalising leaves as it is. If the decoded specifier is rooted, so is the address, and
otherwise the address is rooted if and only if the module's own one is. -/
theorem resolve_canonical {importer s : String} (himporter : ¬ isRemote importer) (hs : ¬ isRemote s) (hne : s ≠ "") :
    ∃ address, resolve importer s = .ok address ∧ Path.Canonical address.toList ∧
      (¬ Path.Rooted (Text.Percent.decode s).toList → (Path.Rooted address.toList ↔ Path.Rooted importer.toList)) ∧
      (Path.Rooted (Text.Percent.decode s).toList → Path.Rooted address.toList) ∧
      Path.normalize address.toList = address.toList := by
  refine ⟨_, resolve_local himporter hs hne, ?_⟩
  rw [String.toList_ofList, Path.rooted_normalize]
  refine ⟨Path.normalize_canonical _, fun hrelative => ?_, fun hrooted => ?_, Path.normalize_normalize _⟩
  · rw [Path.rooted_append hrelative, Path.rooted_folder]
  · rwa [Path.append_of_rooted hrooted]

/-- Slashes and dots that come out of escapes, seen from a relative module: one specifier climbs above the folder, and one
is rooted once it is decoded. -/
theorem resolve_canonical_escaped :
    resolve "pkg/main.0" "%2e%2E/..//.%2Fa%2f" = .ok "../a" ∧ Path.Canonical "../a".toList ∧
      resolve "pkg/main.0" "%2f../b//./c" = .ok "/b/c" ∧ Path.Canonical "/b/c".toList ∧
      Path.Rooted "/b/c".toList := by
  have hclimbing : resolve "pkg/main.0" "%2e%2E/..//.%2Fa%2f" = .ok "../a" := by decide +kernel
  have hrooted : resolve "pkg/main.0" "%2f../b//./c" = .ok "/b/c" := by decide +kernel
  obtain ⟨address, haddress, hcanonical, -⟩ :=
    @resolve_canonical "pkg/main.0" "%2e%2E/..//.%2Fa%2f" (by decide) (by decide) (by decide)
  obtain ⟨address', haddress', hcanonical', -, hroot, -⟩ :=
    @resolve_canonical "pkg/main.0" "%2f../b//./c" (by decide) (by decide) (by decide)
  rw [hclimbing] at haddress
  obtain rfl := Except.ok.inj haddress
  rw [hrooted] at haddress'
  obtain rfl := Except.ok.inj haddress'
  have hslash : (Text.Percent.decode "%2f../b//./c").toList.head? = some '/' := by decide +kernel
  exact ⟨hclimbing, hcanonical, hrooted, hcanonical', hroot hslash⟩

end Address

end LazyModules
