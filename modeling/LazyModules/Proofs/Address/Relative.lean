import LazyModules.Proofs.Address.Normal

/-!
# From one module to the next

A module says how to get to another one, seen from its own folder. Two such steps make one: whoever follows an import
to `s`, and there an import to `t`, comes to the address that `t` has when it is seen from the folder of `s`. Addresses
are compared as texts, so both ways have to be spelled alike, with whatever dots and slashes the specifiers hold.

**Results.**
* `Percent.decode_eq_self`: a text without percent signs is decoded to itself.
* `Path.normalize_append_folder`: what is seen from the folder of a normal path is what is seen from the folder of the
  path that it was made from.
* `Address.resolve_composes`: two steps make one.
-/
namespace LazyModules

/-! ## Plain text -/

namespace Text

theorem Utf8.decodeLossy_ascii {cs : List Char} (hcs : ∀ c ∈ cs, c.toNat < 128) :
    Utf8.decodeLossy (cs.map fun c => UInt8.ofNat c.toNat) 0 = cs := by
  induction cs with
  | nil => rfl
  | cons c cs ih =>
    have hc : c.toNat < 128 := hcs c (List.mem_cons_self ..)
    have hbyte : (UInt8.ofNat c.toNat).toNat = c.toNat := by
      rw [UInt8.toNat_ofNat']
      omega
    have hlow : UInt8.ofNat c.toNat < 0x80 := by
      rw [UInt8.lt_iff_toNat_lt, hbyte]
      exact hc
    have hstep (rest : List UInt8) : Utf8.step (UInt8.ofNat c.toNat) rest = .char c 1 := by
      simp [Utf8.step, Utf8.widthOf, hlow, hbyte]
    rw [List.map_cons, Utf8.decodeLossy, hstep]
    simp [ih fun d hd => hcs d (List.mem_cons_of_mem _ hd)]

namespace Percent

theorem bytesOf_of_not_mem {cs : List Char} (hcs : '%' ∉ cs) : bytesOf cs 0 = cs.map fun c => UInt8.ofNat c.toNat := by
  induction cs with
  | nil => rfl
  | cons c cs ih =>
    rw [List.mem_cons, not_or] at hcs
    unfold bytesOf
    split
    · exact absurd rfl hcs.1
    · rw [ih hcs.2, List.map_cons]

theorem decodeChars_of_not_mem {run cs : List Char} (hrun : ∀ c ∈ run, c.toNat < 128) (hrun' : '%' ∉ run)
    (hcs : '%' ∉ cs) : decodeChars run cs = run.reverse ++ cs := by
  have hdecoded (run : List Char) (hrun : ∀ c ∈ run, c.toNat < 128) (hrun' : '%' ∉ run) :
      Utf8.decodeLossy (bytesOf run.reverse 0) 0 = run.reverse := by
    rw [bytesOf_of_not_mem (by simpa using hrun'), Utf8.decodeLossy_ascii (by simpa using hrun)]
  induction cs generalizing run with
  | nil => rw [decodeChars, hdecoded run hrun hrun', List.append_nil]
  | cons c cs ih =>
    rw [List.mem_cons, not_or] at hcs
    unfold decodeChars
    split
    · rename_i hc
      rw [ih (by simpa using ⟨hc, hrun⟩) (by simpa using ⟨hcs.1, hrun'⟩) hcs.2]
      simp
    · rw [hdecoded run hrun hrun', ih (by simp) (by simp) hcs.2]
      simp

/-- A text without percent signs is decoded to itself. -/
theorem decode_eq_self {s : String} (hs : '%' ∉ s.toList) : decode s = s := by
  rw [decode, decodeChars_of_not_mem (by simp) (by simp) hs, List.reverse_nil, List.nil_append, String.ofList_toList]

end Percent

end Text

/-! ## Paths -/

namespace Path

variable {f p s t : List Char}

theorem rooted_iff_rootSlashes : Rooted p ↔ 0 < rootSlashes p := by
  obtain ⟨k, q, hq, rfl⟩ := exists_slashes p
  rw [rootSlashes_eq k hq]
  match k with
  | 0 => simpa [keptSlashes] using hq
  | 1 | 2 | k + 3 => simp [keptSlashes, Rooted, List.replicate_succ]

theorem append_of_rooted (hp : Rooted p) : append f p = p := by
  cases p with
  | nil => cases hp
  | cons c p =>
    obtain rfl : c = '/' := by simpa [Rooted] using hp
    rfl

/-- A path that is not rooted is put behind its folder. -/
theorem append_of_not_rooted (hp : ¬ Rooted p) :
    append f p = if f = [] ∨ f.getLast? = some '/' then f ++ p else f ++ '/' :: p := by
  unfold append
  split
  · exact absurd rfl hp
  · simp

/-- What is put behind a folder is made of the two, with a slash at most. -/
theorem append_spec (f p : List Char) : p <:+ append f p ∧ ∀ c ∈ append f p, c ∈ f ∨ c = '/' ∨ c ∈ p := by
  by_cases hp : Rooted p
  · rw [append_of_rooted hp]
    exact ⟨List.suffix_refl p, fun c hc => .inr (.inr hc)⟩
  · rw [append_of_not_rooted hp]
    split
    · exact ⟨List.suffix_append f p, fun c hc => by simpa using Or.imp_right Or.inr (List.mem_append.mp hc)⟩
    · exact ⟨⟨f ++ ['/'], by simp⟩, fun c hc => by simpa using hc⟩

theorem rootSlashes_append (hp : ¬ Rooted p) : rootSlashes (append f p) = rootSlashes f := by
  rw [append_of_not_rooted hp]
  obtain ⟨k, q, hq, rfl⟩ := exists_slashes f
  cases q with
  | nil =>
    have hlast : List.replicate k '/' = [] ∨ (List.replicate k '/').getLast? = some '/' := by
      cases k <;> simp [List.replicate_succ']
    rw [List.append_nil, if_pos hlast, rootSlashes_eq k hp, ← List.append_nil (List.replicate k '/'), rootSlashes_eq k hq]
  | cons c q =>
    have hq' (r : List Char) : ¬ Rooted (c :: q ++ r) := hq
    split
    · rw [List.append_assoc, rootSlashes_eq k (hq' _), rootSlashes_eq k hq]
    · rw [List.append_assoc, rootSlashes_eq k (hq' _), rootSlashes_eq k hq]

theorem names_append (hp : ¬ Rooted p) : names (append f p) = names f ++ names p := by
  rw [append_of_not_rooted hp]
  split
  · rename_i hf
    rcases hf with rfl | hlast
    · rfl
    · obtain ⟨g, rfl⟩ := List.getLast?_eq_some_iff.mp hlast
      rw [List.append_assoc, List.singleton_append, names_append_slash, ← names_append_replicate g 1]
      rfl
  · exact names_append_slash f p

theorem rootSlashes_folder (p : List Char) : rootSlashes (folder p) = rootSlashes p := by
  rcases folder_cases p with ⟨hp, hfolder⟩ | ⟨h, l, hl, rfl, ⟨k, rfl, hfolder⟩ | ⟨f, c, k, hc, rfl, hfolder⟩⟩
  · rw [hfolder, rootSlashes_of_not_rooted (not_rooted_of_not_mem hp)]
    rfl
  · have hslashes : List.replicate k '/' ++ '/' :: l = List.replicate (k + 1) '/' ++ l := by
      simp [List.replicate_succ']
    rw [hfolder, hslashes, rootSlashes_eq _ (not_rooted_of_not_mem hl), ← List.append_nil (List.replicate (k + 1) '/'),
      rootSlashes_eq _ (by simp [Rooted])]
  · obtain ⟨m, q, hq, rfl⟩ := exists_slashes f
    have hq' (r : List Char) : ¬ Rooted (q ++ c :: r) := by
      cases q with
      | nil => exact not_rooted_cons hc r
      | cons d q => exact hq
    rw [hfolder, List.append_assoc, rootSlashes_eq m (hq' []), List.append_assoc, List.append_assoc, List.cons_append,
      rootSlashes_eq m (hq' _)]

theorem folder_prefix (p : List Char) : folder p <+: p := by
  rcases folder_cases p with ⟨-, hfolder⟩ | ⟨h, l, -, rfl, ⟨k, rfl, hfolder⟩ | ⟨f, c, k, -, rfl, hfolder⟩⟩
  · exact ⟨p, by rw [hfolder, List.nil_append]⟩
  · exact ⟨l, by rw [hfolder]; simp [List.replicate_succ']⟩
  · exact ⟨List.replicate k '/' ++ '/' :: l, by rw [hfolder]; simp⟩

theorem getLast?_split_append (xs ys : List Char) :
    (Text.split '/' (xs ++ '/' :: ys)).getLast? = (Text.split '/' ys).getLast? := by
  rw [Text.split_append, List.getLast?_append_of_ne_nil _ (Text.split_ne_nil _ _)]

/-- A path has the segments of its folder, and its last one. -/
theorem names_folder {l : Segment} (hl : (Text.split '/' p).getLast? = some l) :
    names p = names (folder p) ++ names l := by
  rcases folder_cases p with ⟨hp, hfolder⟩ | ⟨h, l', hl', rfl, hfolder⟩
  · rw [Text.split_of_not_mem hp] at hl
    obtain rfl : p = l := Option.some.inj hl
    rw [hfolder]
    rfl
  · rw [getLast?_split_append, Text.split_of_not_mem hl'] at hl
    obtain rfl : l' = l := Option.some.inj hl
    have hnames : names h = names (folder (h ++ '/' :: l')) := by
      rcases hfolder with ⟨k, rfl, hfolder⟩ | ⟨f, c, k, hc, rfl, hfolder⟩
      · rw [hfolder, names_replicate, names_replicate]
      · rw [hfolder, ← names_append_replicate (f ++ [c]) k]
        simp
    rw [names_append_slash, hnames]

/-- A segment that is the name of something. -/
def IsName (s : Segment) : Prop := s ≠ [] ∧ s ≠ here ∧ s ≠ up

/-- The last segment of a path, which names the module there. -/
def EndsWith (p : List Char) (l : Segment) : Prop := (Text.split '/' p).getLast? = some l ∧ IsName l

theorem push_name {rooted : Bool} {done : List Segment} {l : Segment} (hl : IsName l) : push rooted done l = l :: done := by
  simp [push, hl.1, hl.2.1, hl.2.2]

theorem EndsWith.names_eq {l : Segment} (h : EndsWith p l) : names p = names (folder p) ++ [l] := by
  have hslash : '/' ∉ l := Text.not_mem_of_mem_split (List.mem_of_getLast? h.1)
  rw [names_folder h.1, names_of_not_mem hslash, if_neg h.2.1]

theorem join_concat {segments : List Segment} (hsegments : segments ≠ []) (l : Segment) :
    Text.join '/' (segments ++ [l]) = Text.join '/' segments ++ '/' :: l := by
  induction segments with
  | nil => exact absurd rfl hsegments
  | cons s segments ih =>
    cases segments with
    | nil => rfl
    | cons t segments =>
      have hrest := ih (List.cons_ne_nil t segments)
      simp only [List.cons_append] at hrest ⊢
      simp [Text.join, hrest]

/-- A name at the end of a path stays at the end of its spelling, behind what comes of the segments before it. -/
theorem names_folder_normalize {before : List Segment} {l : Segment} (hl : IsName l)
    (hnames : names p = before ++ [l]) :
    names (folder (normalize p)) = (before.foldl (push (0 < rootSlashes p)) []).reverse := by
  generalize hdone : before.foldl (push (0 < rootSlashes p)) [] = done
  have hsegments : normalSegments p = done.reverse ++ [l] := by
    rw [normalSegments_eq, hnames, List.foldl_append, hdone, List.foldl_cons, push_name hl, List.foldl_nil,
      List.reverse_cons]
  have hne : normalSegments p ≠ [] := by simp [hsegments]
  have hslash : '/' ∉ l := (normalSegments_proper p l (by simp [hsegments])).2
  have hend : EndsWith (normalize p) l := by
    refine ⟨?_, hl⟩
    have hlast (xs : List Char) : (Text.split '/' (xs ++ '/' :: l)).getLast? = some l := by
      rw [getLast?_split_append, Text.split_of_not_mem hslash]
      rfl
    rw [normalize_of_segments hne, hsegments]
    by_cases hempty : done.reverse = []
    · rw [hempty, List.nil_append, Text.join]
      cases rootSlashes p with
      | zero => rw [List.replicate_zero, List.nil_append, Text.split_of_not_mem hslash, List.getLast?_singleton]
      | succ k =>
        rw [List.replicate_succ', List.append_assoc, List.singleton_append]
        exact hlast _
    · rw [join_concat hempty, ← List.append_assoc]
      exact hlast _
  have hread := hend.names_eq
  rw [names_normalize hne, hsegments] at hread
  exact (List.append_cancel_right hread).symm

/-- What is seen from the folder of a normal path is what is seen from the folder of the path that it was made from. -/
theorem normalize_append_folder {l : Segment} (hl : EndsWith s l) :
    normalize (append (folder (normalize (append f s))) t) = normalize (append f (append (folder s) t)) := by
  by_cases ht : Rooted t
  · rw [append_of_rooted ht, append_of_rooted ht, append_of_rooted ht]
  -- both ways go through `before`, and then on with the segments of `t`
  have hmeet (before : List Segment) (hnames : names (append f s) = before ++ [l])
      (hslashes : rootSlashes (append f (append (folder s) t)) = rootSlashes (append f s))
      (hnames' : names (append f (append (folder s) t)) = before ++ names t) :
      normalize (append (folder (normalize (append f s))) t) = normalize (append f (append (folder s) t)) := by
    have hroot : rootSlashes (append (folder (normalize (append f s))) t) = rootSlashes (append f s) := by
      rw [rootSlashes_append ht, rootSlashes_folder, rootSlashes_normalize]
    have hnothing : Kept (0 < rootSlashes (append f s)) [] := trivial
    have hkept := hnothing.foldl before
    refine normalize_congr (hroot.trans hslashes.symm) ?_
    rw [hslashes, names_append ht, names_folder_normalize hl.2 hnames, hnames', List.foldl_append, hkept.foldl_push,
      List.foldl_append]
  by_cases hs : Rooted s
  · have hfolder : Rooted (append (folder s) t) := by
      rw [rooted_iff_rootSlashes, rootSlashes_append ht, rootSlashes_folder, ← rooted_iff_rootSlashes]
      exact hs
    refine hmeet (names (folder s)) ?_ ?_ ?_
    · rw [append_of_rooted hs, hl.names_eq]
    · rw [append_of_rooted hs, append_of_rooted hfolder, rootSlashes_append ht, rootSlashes_folder]
    · rw [append_of_rooted hfolder, names_append ht]
  · have hfolder : ¬ Rooted (append (folder s) t) := by
      rw [rooted_iff_rootSlashes, rootSlashes_append ht, rootSlashes_folder, ← rooted_iff_rootSlashes]
      exact hs
    refine hmeet (names f ++ names (folder s)) ?_ ?_ ?_
    · rw [names_append hs, hl.names_eq, List.append_assoc]
    · rw [rootSlashes_append hfolder, rootSlashes_append hs]
    · rw [names_append hfolder, names_append ht, List.append_assoc]

end Path

/-! ## Addresses -/

namespace Address

/-- What is put behind the folder of a local specifier is no remote address. -/
theorem append_folder_not_remote {s t : List Char} (hs : ¬ remoteScheme.toList <+: s)
    (ht : ¬ remoteScheme.toList <+: t) : ¬ remoteScheme.toList <+: Path.append (Path.folder s) t := by
  by_cases hrooted : Path.Rooted t
  · rwa [Path.append_of_rooted hrooted]
  rw [Path.append_of_not_rooted hrooted]
  rcases Path.folder_cases s with ⟨-, hfolder⟩ | ⟨h, l, -, rfl, ⟨k, -, hfolder⟩ | ⟨f, c, k, hc, rfl, hfolder⟩⟩
  · rw [hfolder]
    exact ht
  · have hlast : (List.replicate (k + 1) '/').getLast? = some '/' := by simp [List.replicate_succ']
    rw [hfolder, if_pos (.inr hlast), List.replicate_succ, List.cons_append]
    rintro ⟨rest, hrest⟩
    have hhead : 'h' = '/' := List.head_eq_of_cons_eq hrest
    cases hhead
  · rw [hfolder, if_neg (by simp [hc])]
    rintro ⟨rest, hrest⟩
    have hfront (bs : List Char) (hbs : f ++ [c] = remoteScheme.toList ++ bs) : False :=
      hs ⟨bs ++ (List.replicate k '/' ++ '/' :: l), by rw [← List.append_assoc, ← hbs]; simp⟩
    rcases List.append_eq_append_iff.mp hrest with ⟨bs, hbs, -⟩ | ⟨as, has, hslash⟩
    · exact hfront bs hbs
    cases as with
    | nil => exact hfront [] (by rw [has]; simp)
    | cons d as =>
      obtain ⟨rfl, rfl⟩ := List.cons.inj hslash
      -- the scheme has two slashes, and the folder ends before the first one
      have hdrop : remoteScheme.toList.drop (f ++ [c]).length = '/' :: as := by rw [has, List.drop_left]
      have htake : remoteScheme.toList.take (f ++ [c]).length = f ++ [c] := by rw [has, List.take_left]
      have hslashes : ∀ n < 9, (remoteScheme.toList.drop n).head? = some '/' → n = 6 ∨ n = 7 := by decide
      have hlength : (f ++ [c]).length < 9 := by
        have := congrArg List.length has
        simp only [List.length_append, List.length_cons] at this ⊢
        have height : remoteScheme.toList.length = 8 := rfl
        omega
      rcases hslashes _ hlength (by rw [hdrop]; rfl) with hsix | hseven
      · rw [hsix] at hdrop
        obtain rfl : ['/'] = as := (List.cons.inj hdrop).2
        exact hrooted rfl
      · rw [hseven] at htake
        have hlast := congrArg List.getLast? htake
        rw [List.getLast?_concat] at hlast
        exact hc (Option.some.inj hlast).symm

variable {importer s t : String}

/-- The address of a local specifier. -/
theorem resolve_local (himporter : ¬ isRemote importer) (hs : ¬ isRemote s) (hne : s ≠ "") :
    resolve importer s = .ok (String.ofList
      (Path.normalize (Path.append (Path.folder importer.toList) (Text.Percent.decode s).toList))) := by
  simp [resolve, hs, himporter, hne]

/-- The address of a local specifier without percent signs. -/
theorem resolve_plain (himporter : ¬ isRemote importer) (hs : ¬ isRemote s) (hne : s ≠ "") (hplain : '%' ∉ s.toList) :
    resolve importer s =
      .ok (String.ofList (Path.normalize (Path.append (Path.folder importer.toList) s.toList))) := by
  rw [resolve_local himporter hs hne, Text.Percent.decode_eq_self hplain]

/-- Two steps make one. From a local module, an import of `s`, and from there an import of `t`, leads to the same address
as the import of `t` seen from the folder of `s`. -/
theorem resolve_composes {l : Path.Segment} (himporter : ¬ isRemote importer) (hs : ¬ isRemote s) (ht : ¬ isRemote t)
    (hs' : '%' ∉ s.toList) (ht' : '%' ∉ t.toList) (hne : t ≠ "") (hl : Path.EndsWith s.toList l) :
    ∃ middle address, resolve importer s = .ok middle ∧ resolve middle t = .ok address ∧
      resolve importer (String.ofList (Path.append (Path.folder s.toList) t.toList)) = .ok address := by
  have hsne : s ≠ "" := by
    rintro rfl
    have hempty : [] = l := Option.some.inj hl.1
    exact hl.2.1 hempty.symm
  have hmiddle : ¬ isRemote (String.ofList (Path.normalize (Path.append (Path.folder importer.toList) s.toList))) := by
    rw [isRemote_iff, String.toList_ofList]
    exact Path.normalize_not_remote _
  have hdirect : ¬ isRemote (String.ofList (Path.append (Path.folder s.toList) t.toList)) := by
    rw [isRemote_iff] at hs ht
    rw [isRemote_iff, String.toList_ofList]
    exact append_folder_not_remote hs ht
  refine ⟨_, _, resolve_plain himporter hs hsne hs', resolve_plain hmiddle ht hne ht', ?_⟩
  rw [resolve_plain himporter hdirect ?_ ?_]
  · rw [String.toList_ofList, String.toList_ofList, Path.normalize_append_folder hl]
  · intro hempty
    have hsuffix := (Path.append_spec (Path.folder s.toList) t.toList).1
    rw [String.ofList_eq_empty_iff.mp hempty] at hsuffix
    exact hne (String.toList_eq_nil_iff.mp (List.suffix_nil.mp hsuffix))
  · rw [String.toList_ofList]
    intro hmem
    rcases (Path.append_spec _ _).2 '%' hmem with hfolder | hslash | hmem
    · exact hs' ((Path.folder_prefix _).mem hfolder)
    · cases hslash
    · exact ht' hmem

/-- Up from a folder and down into another, with a spare slash and a spare dot. -/
theorem resolve_composes_climbing :
    resolve "pkg/main.0" "../lib/./a.0" = .ok "lib/a.0" ∧ resolve "lib/a.0" "..//../b.0" = .ok "../b.0" ∧
      resolve "pkg/main.0" "../lib/./..//../b.0" = .ok "../b.0" := by
  obtain ⟨middle, address, hmiddle, haddress, hdirect⟩ :=
    @resolve_composes "pkg/main.0" "../lib/./a.0" "..//../b.0" ['a', '.', '0'] (by decide) (by decide) (by decide)
      (by decide) (by decide) (by decide) ⟨rfl, by decide, by decide, by decide⟩
  have hfirst : resolve "pkg/main.0" "../lib/./a.0" = .ok "lib/a.0" := by decide
  have hsecond : resolve "lib/a.0" "..//../b.0" = .ok "../b.0" := by decide
  rw [hfirst] at hmiddle
  obtain rfl := Except.ok.inj hmiddle
  rw [hsecond] at haddress
  obtain rfl := Except.ok.inj haddress
  exact ⟨hfirst, hsecond, hdirect⟩

end Address

end LazyModules
