import Mathlib.Data.List.Chain
import LazyModules.Address
import LazyModules.Proofs.Text.Split

/-!
# Which addresses are remote

Seen from a local module, an address is remote only if the specifier says so itself: a normal path never has
two slashes in a row behind something else, so no escapes and no dots in it make up `https://`. Seen from a
remote module, a specifier is joined with the address of that module and stays remote, except that a
specifier with a scheme of its own, such as `file:`, is taken as it is.

**Results.**
* `Path.join_singleSlashes`, `Path.normalize_not_remote`: a normal path never begins like a remote address.
* `Url.join_remote`: what is joined with a remote address is remote, or is the reference itself.
* `resolve_isRemote_iff`: which specifiers lead to remote addresses, for every module that imports.
* `resolve_leaves_network`: a specifier that takes a remote module to a local address.
-/
namespace LazyModules

/-! ## Local addresses -/

namespace Path

def SingleSlashes (cs : List Char) : Prop := cs.IsChain fun a b => a = '/' → b ≠ '/'

/-- A segment of a normal path. -/
def Proper (s : Segment) : Prop := s ≠ [] ∧ '/' ∉ s

/-- A text without slashes. -/
theorem singleSlashes_of_not_mem {cs : List Char} (hcs : '/' ∉ cs) : SingleSlashes cs := by
  induction cs with
  | nil => exact .nil
  | cons c cs ih =>
    rw [List.mem_cons, not_or] at hcs
    exact (ih hcs.2).cons fun _ _ h => absurd h.symm hcs.1

/-- What is pushed is proper, or is dropped. -/
theorem push_proper {rooted : Bool} {done : List Segment} {s : Segment} (hdone : ∀ d ∈ done, Proper d)
    (hs : '/' ∉ s) : ∀ d ∈ push rooted done s, Proper d := by
  have hcons (hne : s ≠ []) : ∀ d ∈ s :: done, Proper d := by
    intro d hd
    rcases List.mem_cons.mp hd with rfl | hd
    · exact ⟨hne, hs⟩
    · exact hdone d hd
  unfold push
  split
  · exact hdone
  · rename_i hkept
    have hne : s ≠ [] := fun h => hkept (by simp [h])
    split
    · exact hcons hne
    · split
      · split
        · exact fun d hd => absurd hd List.not_mem_nil
        · exact hcons hne
      · split
        · exact hcons hne
        · exact fun d hd => hdone d (List.mem_cons_of_mem _ hd)

theorem normalSegments_proper (p : List Char) : ∀ s ∈ normalSegments p, Proper s := by
  have hfold : ∀ (segments done : List Segment), (∀ s ∈ segments, '/' ∉ s) → (∀ d ∈ done, Proper d) →
      ∀ s ∈ segments.foldl (push (0 < rootSlashes p)) done, Proper s := by
    intro segments
    induction segments with
    | nil => exact fun done _ hdone => hdone
    | cons s segments ih =>
      intro done hsegments hdone
      exact ih _ (fun t ht => hsegments t (List.mem_cons_of_mem _ ht))
        (push_proper hdone (hsegments s (List.mem_cons_self ..)))
  intro s hs
  exact hfold _ [] (fun _ => Text.not_mem_of_mem_split) (by simp) s (List.mem_reverse.mp hs)

/-- Proper segments are set off by one slash each. -/
theorem join_singleSlashes {segments : List Segment} (hsegments : ∀ s ∈ segments, Proper s) :
    SingleSlashes (Text.join '/' segments) ∧ (Text.join '/' segments).head? ≠ some '/' := by
  induction segments with
  | nil => exact ⟨.nil, nofun⟩
  | cons s segments ih =>
    obtain ⟨hne, hslash⟩ := hsegments s (List.mem_cons_self ..)
    have hhead (rest : List Char) : (s ++ rest).head? ≠ some '/' := by
      obtain ⟨c, cs, rfl⟩ := List.exists_cons_of_ne_nil hne
      exact fun h => hslash (Option.some.inj h ▸ List.mem_cons_self ..)
    cases segments with
    | nil => exact ⟨singleSlashes_of_not_mem hslash, by simpa [Text.join] using hhead []⟩
    | cons t segments =>
      obtain ⟨hrest, hstart⟩ := ih fun u hu => hsegments u (List.mem_cons_of_mem _ hu)
      refine ⟨List.isChain_append.mpr ⟨singleSlashes_of_not_mem hslash, hrest.cons fun c hc _ => ?_, ?_⟩,
        hhead _⟩
      · rintro rfl
        exact hstart hc
      · intro a ha b _ hab
        exact absurd (hab ▸ List.mem_of_getLast? ha) hslash

/-- A normal path does not begin like a remote address. -/
theorem normalize_not_remote (p : List Char) : ¬ Address.remoteScheme.toList <+: normalize p := by
  have hsingle := join_singleSlashes (normalSegments_proper p)
  have hhere : ¬ Address.remoteScheme.toList <+: here := by decide
  unfold normalize
  cases hslashes : rootSlashes p with
  | zero =>
    rw [List.replicate_zero, List.nil_append]
    split
    · exact hhere
    · rintro ⟨rest, hrest⟩
      rw [← hrest] at hsingle
      have hchain : SingleSlashes Address.remoteScheme.toList := (List.isChain_append.mp hsingle.1).1
      revert hchain
      unfold SingleSlashes
      decide
  | succ n =>
    rw [List.replicate_succ, List.cons_append]
    rintro ⟨rest, hrest⟩
    have hhead : 'h' = '/' := List.head_eq_of_cons_eq hrest
    revert hhead
    decide

end Path

/-! ## Joined addresses -/

namespace Url

def secure : List Char := ['h', 't', 't', 'p', 's']

/-- What a text without a scheme of its own is taken to have. -/
def schemeOr (scheme cs : List Char) : List Char := ((scheme? (clean cs)).map Prod.fst).getD scheme

theorem scheme_parse {scheme cs : List Char} {u : Url} (hu : parse scheme cs = .ok u) :
    u.scheme = schemeOr scheme cs := by
  unfold parse at hu
  unfold schemeOr
  cases hs : scheme? (clean cs) with
  | none =>
    rw [hs] at hu
    simp only [Option.getD_none, bind, Except.bind, pure, Except.pure] at hu
    split at hu
    · cases hu
    · cases hu
      rfl
  | some s =>
    rw [hs] at hu
    simp only [Option.getD_some, bind, Except.bind, pure, Except.pure] at hu
    split at hu
    · cases hu
    · cases hu
      rfl

theorem schemeOr_remote {cs : List Char} (hcs : Address.remoteScheme.toList <+: cs) (scheme : List Char) :
    schemeOr scheme cs = secure := by
  obtain ⟨rest, rfl⟩ := hcs
  rfl

/-- A URL is written with its scheme and two slashes at its front. -/
theorem write_begins (u : Url) : u.scheme ++ [':', '/', '/'] <+: write u := by
  unfold write
  simp only [List.append_assoc, List.cons_append, List.prefix_append_right_inj, List.cons_prefix_cons, true_and]
  generalize (if u.params = [] then u.path else u.path ++ ';' :: u.params) = path
  split
  · rename_i hslashes
    rw [Bool.and_eq_true, List.isPrefixOf_iff_prefix] at hslashes
    exact hslashes.2.trans (List.prefix_append ..)
  · split
    · simp
    · simp

/-- What is joined with a remote address is the reference itself if that has another scheme, and remote
otherwise. -/
theorem join_remote {base ref cs : List Char} (hbase : Address.remoteScheme.toList <+: base)
    (hcs : join base ref = .ok cs) :
    if schemeOr secure ref = secure then Address.remoteScheme.toList <+: cs else cs = ref := by
  have hwrite (u : Url) (hu : u.scheme = secure) : Address.remoteScheme.toList <+: write u := by
    have hbegins := write_begins u
    rwa [hu] at hbegins
  unfold join at hcs
  split at hcs
  · rename_i hempty
    rw [hempty]
    cases hcs
    exact hbase
  · simp only [bind, Except.bind, pure, Except.pure] at hcs
    split at hcs
    · cases hcs
    · rename_i b hb
      have hb' : b.scheme = secure := (scheme_parse hb).trans (schemeOr_remote hbase [])
      rw [hb'] at hcs
      split at hcs
      · cases hcs
      · rename_i r hr
        have hr' : r.scheme = schemeOr secure ref := scheme_parse hr
        rw [← hr']
        by_cases hsame : r.scheme = secure
        · rw [if_pos hsame]
          rw [if_neg (not_not.mpr hsame)] at hcs
          split at hcs
          · cases hcs
            exact hwrite r hsame
          · split at hcs
            · cases hcs
              exact hwrite _ hsame
            · cases hcs
              exact hwrite _ hsame
        · rw [if_neg hsame]
          rw [if_pos hsame] at hcs
          exact (Except.ok.inj hcs).symm

end Url

/-! ## Resolved addresses -/

namespace Address

/-- A specifier with a scheme that is not the scheme of remote addresses. -/
def HasOtherScheme (specifier : String) : Prop :=
  ∃ scheme rest, Url.scheme? (Url.clean specifier.toList) = some (scheme, rest) ∧ scheme ≠ Url.secure

theorem hasOtherScheme_iff {specifier : String} :
    HasOtherScheme specifier ↔ Url.schemeOr Url.secure specifier.toList ≠ Url.secure := by
  unfold HasOtherScheme Url.schemeOr
  cases Url.scheme? (Url.clean specifier.toList) with
  | none => simp
  | some s => simp [Prod.ext_iff]

theorem isRemote_iff {address : String} : isRemote address ↔ remoteScheme.toList <+: address.toList :=
  List.isPrefixOf_iff_prefix

/-- Which addresses are remote. A specifier leads to one if it is remote itself, or if the module that
imports is remote and the specifier has no other scheme; a local module reaches the network in no other way.
A specifier with another scheme is taken as it is by a remote module. -/
theorem resolve_isRemote_iff {importer specifier address : String}
    (haddress : resolve importer specifier = .ok address) :
    (isRemote address ↔ isRemote specifier ∨ isRemote importer ∧ ¬ HasOtherScheme specifier) ∧
      (isRemote importer → ¬ isRemote address → HasOtherScheme specifier ∧ address = specifier) := by
  unfold resolve at haddress
  split at haddress
  · rename_i hspecifier
    obtain rfl := Except.ok.inj haddress
    exact ⟨⟨.inl, fun _ => hspecifier⟩, fun _ hlocal => absurd hspecifier hlocal⟩
  · rename_i hspecifier
    split at haddress
    · rename_i himporter
      rw [hasOtherScheme_iff]
      split at haddress
      · rename_i cs hcs
        obtain rfl := Except.ok.inj haddress
        have hjoin := Url.join_remote (isRemote_iff.mp himporter) hcs
        split at hjoin
        · rename_i hsame
          have hremote : isRemote (String.ofList cs) := by rwa [isRemote_iff, String.toList_ofList]
          exact ⟨⟨fun _ => .inr ⟨himporter, not_not.mpr hsame⟩, fun _ => hremote⟩,
            fun _ hlocal => absurd hremote hlocal⟩
        · rename_i hother
          obtain rfl : String.ofList cs = specifier := by rw [hjoin, String.ofList_toList]
          exact ⟨⟨.inl, fun h => h.elim id fun h => absurd hother h.2⟩, fun _ _ => ⟨hother, rfl⟩⟩
      · cases haddress
    · rename_i himporter
      split at haddress
      · cases haddress
      · obtain rfl := Except.ok.inj haddress
        have hlocal : ¬ isRemote (String.ofList (Path.normalize (Path.append (Path.folder importer.toList)
            (Text.Percent.decode specifier).toList))) := by
          rw [isRemote_iff, String.toList_ofList]
          exact Path.normalize_not_remote _
        exact ⟨⟨fun h => absurd h hlocal, fun h => h.elim (absurd · hspecifier) fun h => absurd h.1 himporter⟩,
          fun h => absurd h himporter⟩

theorem resolve_isRemote_iff_sibling : resolve "https://h/pkg/a.0" "./x/../../b.0" = .ok "https://h/b.0" ∧
    isRemote "https://h/b.0" := by
  have haddress : resolve "https://h/pkg/a.0" "./x/../../b.0" = .ok "https://h/b.0" := by decide
  have hscheme : ¬ HasOtherScheme "./x/../../b.0" := by
    rw [hasOtherScheme_iff]
    decide
  exact ⟨haddress, (resolve_isRemote_iff haddress).1.mpr (.inr ⟨by decide, hscheme⟩)⟩

/-- A remote module can name a local address, by a specifier with another scheme. -/
theorem resolve_leaves_network : resolve "https://h/a.0" "file:///etc/passwd" = .ok "file:///etc/passwd" ∧
    isRemote "https://h/a.0" ∧ ¬ isRemote "file:///etc/passwd" := by
  decide

end Address

end LazyModules
