import Mathlib.Data.List.Chain
import Mathlib.Data.List.TakeWhile
import LazyModules.Engine
import LazyModules.Proofs.Table

/-!
# The graph of imports

Modules that have been read import one another. An import closes a cycle if its module can be reached from
its target. What is said of such an import lists modules from the target on to the importer and the target
again, each of which can be reached from the one before.

**Results.** `cycleError_justified`: what is said of an import whose target is under evaluation, if every
module under evaluation can be reached from the one before, and the importer from the last one.
-/
namespace LazyModules.Engine

open Relation

variable {modules modules' : Table Module} {asked : String → Prop} {importer name target : String}

/-- A module that has been read imports another one under a name. -/
def ImportsAs (modules : Table Module) (importer name target : String) : Prop :=
  ∃ m, Table.find? modules importer = some m ∧ (name, target) ∈ m.imports

def Edge (modules : Table Module) (importer target : String) : Prop := ∃ name, ImportsAs modules importer name target

/-- Modules whose imports are among them. -/
def Closed (modules : Table Module) (P : String → Prop) : Prop := ∀ a b, Edge modules a b → P a → P b

theorem ImportsAs.mono (himports : ImportsAs modules importer name target)
    (hle : Table.Gains modules modules') : ImportsAs modules' importer name target := by
  obtain ⟨m, hm, hmem⟩ := himports
  exact ⟨m, hle _ _ hm, hmem⟩

theorem Edge.mono (hle : Table.Gains modules modules') {a b : String} (hab : Edge modules a b) :
    Edge modules' a b := by
  obtain ⟨name, hab⟩ := hab
  exact ⟨name, hab.mono hle⟩

theorem Closed.anti {P : String → Prop} (hP : Closed modules' P) (hle : Table.Gains modules modules') :
    Closed modules P :=
  fun a b hab => hP a b (hab.mono hle)

/-- What can be reached from a module. -/
theorem closed_reachable (modules : Table Module) (a : String) : Closed modules (ReflTransGen (Edge modules) a) :=
  fun _ _ hbc hab => hab.tail hbc

/-- What can be reached from some modules. -/
theorem closed_reachableFrom (modules : Table Module) (asked : String → Prop) :
    Closed modules fun b => ∃ a, asked a ∧ ReflTransGen (Edge modules) a b := by
  rintro b c hbc ⟨a, ha, hab⟩
  exact ⟨a, ha, hab.tail hbc⟩

theorem transGen_of_ne {a b : String} (hab : ReflTransGen (Edge modules) a b) (hne : a ≠ b) :
    TransGen (Edge modules) a b := by
  rcases reflTransGen_iff_eq_or_transGen.mp hab with rfl | hab
  · exact absurd rfl hne
  · exact hab

/-! ## Cycles -/

/-- An import that closes a cycle among modules that can be reached from those asked for, and modules on the
way from its target to the importer and back. -/
structure ClosesCycle (modules : Table Module) (asked : String → Prop) (importer name target : String)
    (cycle : List String) : Prop where
  imported : ImportsAs modules importer name target
  returns : ReflTransGen (Edge modules) target importer
  reached : ∃ a, asked a ∧ ReflTransGen (Edge modules) a target
  starts : cycle.head? = some target
  ends : ∃ before, cycle = before ++ [importer, target]
  follows : cycle.IsChain (TransGen (Edge modules))

theorem ClosesCycle.mono {cycle : List String} (hcycle : ClosesCycle modules asked importer name target cycle)
    (hle : Table.Gains modules modules') : ClosesCycle modules' asked importer name target cycle := by
  have hreach : ReflTransGen (Edge modules) ≤ ReflTransGen (Edge modules') :=
    ReflTransGen.mono fun _ _ => Edge.mono hle
  refine ⟨hcycle.imported.mono hle, hreach _ _ hcycle.returns, ?_, hcycle.starts, hcycle.ends,
    hcycle.follows.imp (TransGen.mono fun _ _ => Edge.mono hle)⟩
  obtain ⟨a, ha, hat⟩ := hcycle.reached
  exact ⟨a, ha, hreach _ _ hat⟩

/-- An error that, if it is about a cycle of imports, tells one. -/
def Justified (modules : Table Module) (asked : String → Prop) (e : SemanticError) : Prop :=
  ∀ importer name cycle, e.cause = .cyclicImport importer name cycle →
    ∃ target, ClosesCycle modules asked importer name target cycle

theorem Justified.mono {e : SemanticError} (he : Justified modules asked e)
    (hle : Table.Gains modules modules') : Justified modules' asked e := by
  intro importer name cycle hcause
  obtain ⟨target, hcycle⟩ := he importer name cycle hcause
  exact ⟨target, hcycle.mono hle⟩

/-- The modules under evaluation from one of them on. -/
theorem dropWhile_ne_eq_cons {evaluating : List String} (hmem : target ∈ evaluating) :
    ∃ after, evaluating.dropWhile (· ≠ target) = target :: after := by
  induction evaluating with
  | nil => cases hmem
  | cons a evaluating ih =>
    by_cases ha : a = target
    · exact ⟨evaluating, by simp [ha]⟩
    · rw [List.dropWhile_cons_of_pos (by simpa using ha)]
      exact ih ((List.mem_cons.mp hmem).resolve_left (Ne.symm ha))

/-- What is said of an import whose target is under evaluation. The importer may not be, if it has been
evaluated before; then it is put at the end. -/
theorem cycleError_justified {evaluating : List String} (hchain : evaluating.IsChain (TransGen (Edge modules)))
    (hmem : target ∈ evaluating) (himported : ImportsAs modules importer name target)
    (hreturns : ∀ a ∈ evaluating, ReflTransGen (Edge modules) a importer)
    (hreached : ∃ a, asked a ∧ ReflTransGen (Edge modules) a target) :
    Justified modules asked (cycleError evaluating importer name target) := by
  obtain ⟨after, hafter⟩ := dropWhile_ne_eq_cons hmem
  have hsuffix : (target :: after) <:+ evaluating := hafter ▸ List.dropWhile_suffix _
  have hfollows : (target :: after).IsChain (TransGen (Edge modules)) := hchain.suffix hsuffix
  have hedge : TransGen (Edge modules) importer target := .single ⟨name, himported⟩
  -- a list that ends with the importer goes on with the target
  have hcloses (before : List String) (hstarts : (before ++ [importer]).head? = some target)
      (hbefore : (before ++ [importer]).IsChain (TransGen (Edge modules))) :
      ClosesCycle modules asked importer name target (before ++ [importer] ++ [target]) := by
    refine ⟨himported, hreturns target hmem, hreached, ?_, ⟨before, by simp⟩, hbefore.append (.singleton _) ?_⟩
    · rw [List.head?_append, hstarts]
      rfl
    · intro a ha b hb
      rw [List.getLast?_concat, Option.mem_some_iff] at ha
      rw [List.head?_cons, Option.mem_some_iff] at hb
      exact ha ▸ hb ▸ hedge
  intro importer' name' cycle hcause
  simp only [cycleError, SemanticCause.raise, hafter] at hcause
  obtain ⟨rfl, rfl, rfl⟩ := SemanticCause.cyclicImport.inj hcause
  refine ⟨target, ?_⟩
  split
  · rename_i hlast
    obtain ⟨before, hbefore⟩ := List.getLast?_eq_some_iff.mp hlast
    rw [hbefore]
    exact hcloses before (hbefore ▸ rfl) (hbefore ▸ hfollows)
  · rename_i hlast
    refine hcloses (target :: after) rfl (hfollows.append (.singleton _) fun a ha b hb => ?_)
    rw [List.head?_cons, Option.mem_some_iff] at hb
    subst hb
    have hne : a ≠ importer := fun h => hlast (h ▸ ha)
    exact transGen_of_ne (hreturns a (hsuffix.subset (List.mem_of_getLast? ha))) hne

end LazyModules.Engine
