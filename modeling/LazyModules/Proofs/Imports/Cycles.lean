import LazyModules.Proofs.Engine.Failure
import LazyModules.Proofs.Imports.Containment

/-!
# Cycles of imports

An import closes a cycle if its target is under evaluation. The importer need not be: a function or a lazy
field of a module that has its value already may be what looks at the import. So nothing that is on the stack
of modules under evaluation says that the target leads to the importer. It does all the same, since a run
stays among the modules that can be reached from each module under evaluation.

For the same reason two neighbours on the stack need not import one another. The second can be reached from
the first, through modules that have been evaluated and are not on the stack any more.

**Results.**
* `containment`: the engine keeps evaluation among the modules that can be reached.
* `serve_justified`: in every run, an error about a cycle of imports tells one.
* `cycles_are_real`: there is no false alarm, and none at all if no cycle can be reached.
* `cycle_told_follows_imports`: the list of modules that is told. It may leave out modules on the way
  (`cycle_told_skips_module`).
-/
namespace LazyModules.Engine

open Eval Relation

variable {asked : String → Prop} {c : Config} {address : String} {h : EngineState} {s s' : Session}
  {P : String → Prop}

/-! ## The engine -/

/-- Another session with the same modules under evaluation. -/
theorem Stays.setOuter {o : Outcome Trouble Unit} (hsound : Sound h)
    (hevaluating : s.evaluating = h.rest.outer.evaluating)
    (hmodules : Table.Gains h.rest.outer.modules s.modules)
    (ho : ∀ e, o ≠ .error (.semantic e)) : Stays asked h o (Heap.setOuter h s) :=
  ⟨hsound, .setOuter h s, .refl _, hevaluating, hmodules, fun e he => absurd he (ho e)⟩

/-- The modules under evaluation lead to a module that is about to be evaluated. -/
theorem isChain_enter (hinv : Contained asked h) (hnot : address ∉ h.rest.outer.evaluating)
    (haddress : ∀ P, Encloses asked h P → P address) :
    (h.rest.outer.evaluating ++ [address]).IsChain (TransGen (Edge h.rest.outer.modules)) := by
  refine hinv.chain.append (.singleton _) fun a ha b hb => ?_
  rw [List.head?_cons, Option.mem_some_iff] at hb
  subst hb
  have hmem : a ∈ h.rest.outer.evaluating := List.mem_of_getLast? ha
  have hreach := haddress (ReflTransGen (Edge h.rest.outer.modules) a)
    ⟨closed_reachable _ a, .inr (.inl ⟨a, hmem, .refl⟩)⟩
  exact transGen_of_ne hreach fun heq => hnot (heq ▸ hmem)

section Opening

variable {m : Module} {l : Library}

theorem contained_opened (hinv : Contained asked h) (hnot : address ∉ h.rest.outer.evaluating)
    (haddress : ∀ P, Encloses asked h P → P address) (hopening : Opening c h address m s l) :
    Contained asked (opened h s l address) := by
  have hgain : Table.Gains h.rest.outer.modules s.modules := hopening.parses.modules_gain
  refine hinv.setOuter hgain (fun a v hv => .inl ?_) ?_ fun e a he => .inl ?_
  · exact hopening.parses.values_eq ▸ hv
  · have hevaluating : s.evaluating = h.rest.outer.evaluating := hopening.parses.evaluating_eq
    change (s.evaluating ++ [address]).IsChain (TransGen (Edge s.modules))
    rw [hevaluating]
    exact (isChain_enter hinv hnot haddress).imp (TransGen.mono fun _ _ => Edge.mono hgain)
  · have he : .blamed e a ∈ s.journal := by simpa [Session.enter, Session.setLibrary, Session.note] using he
    simpa [Session.note] using hopening.parses.of_blamed he

/-- Where the run goes on once a module is under evaluation, that module is. -/
theorem mem_of_encloses_opened (hsound : Sound h) (haddress : ∀ P, Encloses asked h P → P address)
    (hopening : Opening c h address m s l) (hP : Encloses asked (opened h s l address) P) : P address := by
  have hclosed : Closed h.rest.outer.modules P := hP.closed.anti hopening.parses.modules_gain
  have hevaluating : s.evaluating = h.rest.outer.evaluating := hopening.parses.evaluating_eq
  rcases hP.within with hasked | ⟨a, ha, hPa⟩ | ⟨i, hbusy, hi⟩
  · exact haddress P ⟨hclosed, .inl hasked⟩
  · rcases List.mem_append.mp ha with ha | ha
    · exact haddress P ⟨hclosed, .inr (.inl ⟨a, hevaluating ▸ ha, hPa⟩)⟩
    · exact List.mem_singleton.mp ha ▸ hPa
  · have hold : CellIn h P i := hi.shrink (.setOuter h _) hsound (lt_of_isBusy hbusy)
    exact haddress P ⟨hclosed, .inr (.inr ⟨i, hbusy, hold⟩)⟩

/-- The evaluation of a module is wound up. While the module was under evaluation the run went on where it
leads, so its value leads nowhere else. -/
theorem contained_settles (hinv : Contained asked h) (haddress : ∀ P, Encloses asked h P → P address)
    (hopening : Opening c h address m s l) {r : Outcome Trouble Value × EngineState}
    {o : Outcome Trouble Value}
    (hends : (containmentOutlook asked).Ends (opened h s l address) (containmentOutlook asked).Value r)
    (hsettles : Settles address r.2.rest.outer r.1 o s') :
    (containmentOutlook asked).Ends h (containmentOutlook asked).Value (o, Heap.setOuter r.2 s') := by
  have hstays : Stays asked (opened h s l address) r.1.ending r.2 := hends.leads
  have hinv' : Contained asked r.2 := hends.inv
  have hevaluating : r.2.rest.outer.evaluating = h.rest.outer.evaluating ++ [address] :=
    hstays.evaluating.trans (congrArg (· ++ [address]) hopening.parses.evaluating_eq)
  have hsame : Grows r.2 (Heap.setOuter r.2 s') := .setOuter r.2 s'
  have hopened : Grows h (opened h s l address) := .setOuter h _
  have hgain : Table.Gains h.rest.outer.modules s'.modules := by
    rw [hsettles.modules_eq]
    exact hopening.parses.modules_gain.trans hstays.modules
  have hleads : Stays asked h o.ending (Heap.setOuter r.2 s') := by
    refine ⟨hinv.sound, hopened.trans (hstays.grows.trans hsame), hstays.cells, ?_, hgain,
      fun e he => absurd he (hsettles.ne_semantic e)⟩
    exact hsettles.evaluating_eq.trans (by rw [hevaluating, List.dropLast_concat])
  have hresult (v : Value) (hv : o = .ok v) (P : String → Prop) (hP : Closed r.2.rest.outer.modules P)
      (hPa : P address) : ValueIn r.2 P v := by
    have hencloses : Encloses asked r.2 P := ⟨hP, .inr (.inl ⟨address, by simp [hevaluating], hPa⟩)⟩
    rw [hv] at hsettles
    exact valueIn_of_encloses (hends.result v hsettles.eq_ok) hencloses
  refine ⟨hinv'.setOuter (hsettles.modules_eq ▸ .refl _) (fun a v hv => ?_) ?_ fun e a he => ?_, hleads,
    fun v hv => Value.Holds.forall fun P hP => ?_⟩
  · refine (hsettles.find?_values hv).imp id ?_
    rintro ⟨rfl, ho⟩
    rw [hsettles.modules_eq]
    exact hresult v ho
  · rw [hsettles.evaluating_eq, hsettles.modules_eq]
    exact hinv'.chain.dropLast
  · refine (hsettles.of_blamed he).imp id fun ⟨hr, _⟩ => ?_
    rw [hsettles.modules_eq]
    exact hstays.justified e (by rw [hr]; rfl)
  · have hclosed : Closed r.2.rest.outer.modules P := hsettles.modules_eq ▸ hP.closed
    exact (hresult v hv P hclosed (haddress P (hleads.encloses hP))).grow hsame

end Opening

theorem contained_known {v : Value} (hinv : Contained asked h)
    (haddress : ∀ P, Encloses asked h P → P address) (hv : Table.find? h.rest.outer.values address = some v) :
    (containmentOutlook asked).Ends h (containmentOutlook asked).Value
      (.ok v, Heap.setOuter h (h.rest.outer.note (.demanded address))) := by
  have hleads : Stays asked h (.ok ()) (Heap.setOuter h (h.rest.outer.note (.demanded address))) :=
    .setOuter hinv.sound rfl (.refl _) fun _ he => by cases he
  refine ⟨hinv.setOuter (.refl _) (fun _ _ => .inl) hinv.chain fun e a he => .inl ?_, hleads,
    fun v' hv' => Value.Holds.forall fun P hP => ?_⟩
  · simpa [Session.note] using he
  · obtain rfl := Outcome.ok.inj hv'
    have hP' := hleads.encloses hP
    exact (hinv.values address v hv P hP'.closed (haddress P hP')).grow hleads.grows

theorem contained_unread (hinv : Contained asked h) {o : Outcome Trouble Module}
    (hparses : Parses c address (h.rest.outer.note (.demanded address)) o s) (ho : ∀ m, o ≠ .ok m)
    (failed : List String) : Contained asked (Heap.setOuter h (s.setFailed failed)) ∧
      Stays asked h o.ending (Heap.setOuter h (s.setFailed failed)) := by
  have hmodules : s.modules = h.rest.outer.modules := hparses.modules_eq ho
  have hevaluating : s.evaluating = h.rest.outer.evaluating := hparses.evaluating_eq
  refine ⟨hinv.setOuter hparses.modules_gain (fun a v hv => .inl ?_) ?_ fun e a he => .inl ?_,
    .setOuter hinv.sound hevaluating hparses.modules_gain hparses.ne_semantic⟩
  · exact hparses.values_eq ▸ hv
  · change s.evaluating.IsChain (TransGen (Edge s.modules))
    rw [hevaluating, hmodules]
    exact hinv.chain
  · simpa [Session.note] using hparses.of_blamed he

theorem contained_blames {h' : EngineState} {e : SemanticError} {t : Trouble} (hinv : Contained asked h')
    (hleads : Stays asked h (.error (.semantic e)) h') (hblames : Blames e address h'.rest.outer t s) :
    Contained asked (Heap.setOuter h' s) ∧ Stays asked h (.error t) (Heap.setOuter h' s) := by
  refine ⟨hinv.setOuter (hblames.modules_eq ▸ .refl _) (fun a v hv => .inl (hblames.values_eq ▸ hv)) ?_
    fun e' a he => ?_, hleads.sound, hleads.grows.trans (.setOuter h' s), hleads.cells,
    hblames.evaluating_eq.trans hleads.evaluating, ?_, fun e' he => absurd he hblames.ne_semantic⟩
  · rw [hblames.evaluating_eq, hblames.modules_eq]
    exact hinv.chain
  · refine (hblames.of_blamed he).imp id ?_
    rintro ⟨rfl, -⟩
    rw [hblames.modules_eq]
    exact hleads.justified e' rfl
  · change Table.Gains h.rest.outer.modules s.modules
    rw [hblames.modules_eq]
    exact hleads.modules

/-- An import that leads to a module under evaluation closes a cycle. -/
theorem cycle_contained {importer name target : String} (hinv : Contained asked h)
    (himports : ImportsAs h.rest.outer.modules importer name target)
    (himporter : ∀ P, Encloses asked h P → P importer) (hmem : target ∈ h.rest.outer.evaluating) :
    Stays asked h (.error (.semantic (cycleError h.rest.outer.evaluating importer name target))) h := by
  refine .same hinv.sound fun e he => ?_
  obtain rfl := Trouble.semantic.inj (Outcome.error.inj he)
  refine cycleError_justified hinv.chain hmem himports (fun a ha => ?_) ?_
  · exact himporter _ ⟨closed_reachable _ a, .inr (.inl ⟨a, ha, .refl⟩)⟩
  · have hclosed := closed_reachableFrom h.rest.outer.modules asked
    exact hclosed importer target ⟨name, himports⟩ (himporter _ ⟨hclosed, .inl fun a ha => ⟨a, ha, .refl⟩⟩)

/-- The engine keeps evaluation among the modules that can be reached. -/
def containment (c : Config) (asked : String → Prop) : Conduct c where
  toDiscipline := containmentDiscipline asked
  ask h address := address ∉ h.rest.outer.evaluating ∧ ∀ P, Encloses asked h P → P address
  ask_of_load _ hload hnot :=
    ⟨hnot, fun P hP => hP.closed _ _ ⟨_, hload.1⟩ (hload.2 P hP)⟩
  known hinv hask := contained_known hinv hask.2
  unread hinv _ _ := contained_unread hinv
  opens hinv hask hopening := ⟨contained_opened hinv hask.1 hask.2 hopening, fun hW =>
    moduleScope_contained hW (fun _ => mem_of_encloses_opened hinv.sound hask.2 hopening)
      hopening.parses.find?_modules⟩
  settles hinv hask hopening hends := contained_settles hinv hask.2 hopening hends
  cycle hinv hload := cycle_contained hinv hload.1 hload.2
  blames _ := contained_blames

/-! ## Runs -/

def Asked (requests : List Request) (address : String) : Prop := ∃ q ∈ requests, q.address? = some address

/-- A state between requests: no module is under evaluation, and no cell is busy. -/
structure AtRest (h : EngineState) : Prop where
  evaluating : h.rest.outer.evaluating = []
  busy : ∀ i : Nat, h.cells[i]?.any Cell.isBusy = false

theorem AtRest.stays {o : Outcome Trouble Unit} {h' : EngineState} (hrest : AtRest h)
    (hleads : Stays asked h o h') : AtRest h' :=
  ⟨hleads.evaluating.trans hrest.evaluating, fun i => (hleads.cells.busy i).trans (hrest.busy i)⟩

/-- Between requests, any module may be asked for that is. -/
theorem AtRest.ask (hrest : AtRest h) (haddress : asked address) : (containment c asked).ask h address := by
  refine ⟨by simp [hrest.evaluating], fun P hP => ?_⟩
  rcases hP.within with hasked | ⟨a, ha, -⟩ | ⟨i, hbusy, -⟩
  · exact hasked address haddress
  · rw [hrest.evaluating] at ha
    cases ha
  · rw [hrest.busy] at hbusy
    cases hbusy

theorem inWorld_contained (hinv : Contained asked h) (world : World) :
    Contained asked (inWorld world h) ∧ Stays asked h (.ok ()) (inWorld world h) :=
  ⟨hinv.setOuter (.refl _) (fun _ _ => .inl) hinv.chain fun _ _ => .inl,
    .setOuter hinv.sound rfl (.refl _) fun _ he => by cases he⟩

theorem serve_contained (qs : List Request) (hqs : ∀ a, Asked qs a → asked a) (hinv : Contained asked h)
    (hrest : AtRest h) : Contained asked (serve c byNeed qs h).2 := by
  induction qs generalizing h with
  | nil => exact hinv
  | cons q qs ih =>
    obtain ⟨-, hinv', hleads⟩ := Conduct.answer_ends (K := containment c asked) Conduct.byNeed_walks hinv q
      (fun a ha => hrest.ask (hqs a ⟨q, List.mem_cons_self .., ha⟩)) (inWorld_contained hinv)
    exact ih (fun a ⟨q', hq', ha⟩ => hqs a ⟨q', List.mem_cons_of_mem _ hq', ha⟩) hinv' (hrest.stays hleads)

theorem contained_start (asked : String → Prop) (library : Library) : Contained asked (.start library) where
  sound := ⟨fun i hi => absurd hi (Nat.not_lt_zero i), fun k hk => absurd hk (Nat.not_lt_zero k)⟩
  loads i _ _ _ hi := by simp [Heap.job?, EngineState.start] at hi
  results i job v hi := by simp [EngineState.start] at hi
  values a v hv := by cases hv
  chain := .nil
  blamed e a he := by cases he

/-- In every run, an error about a cycle of imports that is reported tells one. -/
theorem serve_justified {library : Library} {requests : List Request} {e : SemanticError} {a : String}
    (hblamed : .blamed e a ∈ (serve c byNeed requests (.start library)).2.rest.outer.journal) :
    Justified (serve c byNeed requests (.start library)).2.rest.outer.modules (Asked requests) e :=
  (serve_contained requests (fun _ => id) (contained_start _ library) ⟨rfl, fun _ => rfl⟩).blamed e a hblamed

/-- An error in a module is reported by the end of its evaluation. -/
theorem evaluate_ne_semantic (c : Config) (h : EngineState) (address : String) (e : SemanticError) :
    (evaluate c address h).1.ending ≠ .error (.semantic e) := by
  refine evaluate_rule c h address (Q := fun r => r.1.ending ≠ .error (.semantic e)) ?_ ?_ ?_
  · exact fun v => nofun
  · intro o s failed hparses o' ho'
    rw [ho']
    exact hparses.ne_semantic e
  · exact fun m s l r o s' _ _ hsettles => hsettles.ne_semantic e

theorem render_ne_semantic (c : Config) (h : EngineState) (address : String) (e : SemanticError) :
    (render c address h).1.ending ≠ .error (.semantic e) := by
  have hevaluate := evaluate_ne_semantic c h address e
  simp only [render, renderBy, bind, Computation.bind]
  rcases hr : evaluateBy c byNeed address h with ⟨o, h'⟩
  rw [evaluate, hr] at hevaluate
  cases o with
  | error _ | exhausted => exact hevaluate
  | ok v =>
    simp only [Computation.tryCatch]
    rcases hshow : displayWith (walker c byNeed).force c.depth v h' with ⟨o, h''⟩
    cases o with
    | ok text | exhausted =>
      intro hr
      cases hr
    | error t =>
      cases t with
      | semantic e' =>
        obtain ⟨t, s, heq, hblames⟩ := blame_blames (α := String) e' address h''
        simp only [heq]
        exact hblames.ne_semantic
      | reported phase | accident a =>
        intro hr
        cases hr

/-- No error in a module is left unreported. -/
theorem serve_ne_semantic (requests : List Request) (h : EngineState) :
    ∀ o ∈ (serve c byNeed requests h).1, ∀ e, o ≠ .error (.semantic e) := by
  induction requests generalizing h with
  | nil => nofun
  | cons q requests ih =>
    intro o ho e
    rcases List.mem_cons.mp ho with rfl | ho
    · cases q with
      | evaluate address => exact evaluate_ne_semantic c h address e
      | render address => exact render_ne_semantic c h address e
      | change world => nofun
    · exact ih _ o ho e

/-! ## What is told of cycles -/

/-- There are no false cycles. In every run, an import that is reported to close a cycle is an import of the
module at `importer`, and that module can be reached from its target along imports of modules that have been
read. If no cycle can be reached from the modules that are asked for, none is reported, and nothing that goes
wrong in a module is left unreported. -/
theorem cycles_are_real (c : Config) (library : Library) (requests : List Request) :
    let run := serve c byNeed requests (.start library)
    let s := run.2.rest.outer
    (∀ e a importer name cycle, .blamed e a ∈ s.journal → e.cause = .cyclicImport importer name cycle →
      ∃ target m, cycle.getLast? = some target ∧ Table.find? s.modules importer = some m ∧
        (name, target) ∈ m.imports ∧ ReflTransGen (Edge s.modules) target importer) ∧
    ((∀ a b, Asked requests a → ReflTransGen (Edge s.modules) a b → ¬ TransGen (Edge s.modules) b b) →
      ∀ e a importer name cycle, .blamed e a ∈ s.journal → e.cause ≠ .cyclicImport importer name cycle) ∧
    ∀ o ∈ run.1, ∀ e, o ≠ .error (.semantic e) := by
  intro run s
  refine ⟨fun e a importer name cycle hblamed hcause => ?_, fun hacyclic e a importer name cycle hblamed hcause => ?_,
    serve_ne_semantic requests _⟩
  · obtain ⟨target, hcycle⟩ := serve_justified hblamed importer name cycle hcause
    obtain ⟨m, hm, hmem⟩ := hcycle.imported
    obtain ⟨before, hends⟩ := hcycle.ends
    exact ⟨target, m, by simp [hends], hm, hmem, hcycle.returns⟩
  · obtain ⟨target, hcycle⟩ := serve_justified hblamed importer name cycle hcause
    obtain ⟨b, hb, hreach⟩ := hcycle.reached
    exact hacyclic b target hb hreach (.tail' hcycle.returns ⟨name, hcycle.imported⟩)

/-- Three modules on a cycle. The one that closes it is demanded by a function of a module that has its value, called from
the one that it leads back to. -/
theorem cycles_are_real_calledFunction :
    let library : Library := ⟨⟨none, [], [("m", .text (Text.pointsOf "f \"f\" f.add(1)")),
      ("f", .text (Text.pointsOf "g \"g\" {add: n => g + n}")), ("g", .text (Text.pointsOf "m \"m\" m"))]⟩,
      .empty false, ⟨.empty, [], []⟩⟩
    let s := (serve ⟨Reading.ofText, 8⟩ byNeed [.evaluate "m"] (.start library)).2.rest.outer
    .blamed ⟨.cyclicImport "g" "m" ["m", "g", "m"], some "g"⟩ "g" ∈ s.journal ∧
      ∃ target m, ["m", "g", "m"].getLast? = some target ∧ Table.find? s.modules "g" = some m ∧
        ("m", target) ∈ m.imports ∧ ReflTransGen (Edge s.modules) target "g" := by
  dsimp only
  refine ⟨?blamed, (cycles_are_real _ _ _).1 _ _ _ _ _ ?blamed rfl⟩
  decide +kernel

/-- What is told of a cycle. The list begins and ends with the target, and the importer stands just before the
end, whose import of the target it is about. Each module on it can be reached from the one before along imports
of modules that have been read. -/
theorem cycle_told_follows_imports {c : Config} {library : Library} {requests : List Request}
    {e : SemanticError} {a importer name : String} {cycle : List String}
    (hblamed : .blamed e a ∈ (serve c byNeed requests (.start library)).2.rest.outer.journal)
    (hcause : e.cause = .cyclicImport importer name cycle) :
    ∃ target before, cycle = before ++ [importer, target] ∧ cycle.head? = some target ∧
      ImportsAs (serve c byNeed requests (.start library)).2.rest.outer.modules importer name target ∧
      cycle.IsChain (TransGen (Edge (serve c byNeed requests (.start library)).2.rest.outer.modules)) := by
  obtain ⟨target, hcycle⟩ := serve_justified hblamed importer name cycle hcause
  obtain ⟨before, hends⟩ := hcycle.ends
  exact ⟨target, before, hends, hcycle.starts, hcycle.imported, hcycle.follows⟩

/-- A lazy field of a module that has its value closes a cycle. -/
theorem cycle_told_follows_imports_lazyField :
    let library : Library := ⟨⟨none, [], [("m", .text (Text.pointsOf "l \"l\" l.x")),
      ("l", .text (Text.pointsOf "m \"m\" {x: m}"))]⟩, .empty false, ⟨.empty, [], []⟩⟩
    let s := (serve ⟨Reading.ofText, 8⟩ byNeed [.evaluate "m"] (.start library)).2.rest.outer
    .blamed ⟨.cyclicImport "l" "m" ["m", "l", "m"], some "l"⟩ "l" ∈ s.journal ∧
      ∃ target before, ["m", "l", "m"] = before ++ ["l", target] ∧ ["m", "l", "m"].head? = some target ∧
        ImportsAs s.modules "l" "m" target ∧ ["m", "l", "m"].IsChain (TransGen (Edge s.modules)) := by
  dsimp only
  refine ⟨?blamed, cycle_told_follows_imports ?blamed rfl⟩
  decide +kernel

/-- A module that has its value is missing from the middle of a list: `m` leads to `d` only through `l`, whose
lazy field is what looks at `d`. -/
theorem cycle_told_skips_module :
    let library : Library := ⟨⟨none, [], [("m", .text (Text.pointsOf "l \"l\" l.x")),
      ("l", .text (Text.pointsOf "d \"d\" {x: d}")), ("d", .text (Text.pointsOf "m \"m\" m"))]⟩, .empty false,
      ⟨.empty, [], []⟩⟩
    let s := (serve ⟨Reading.ofText, 8⟩ byNeed [.evaluate "m"] (.start library)).2.rest.outer
    .blamed ⟨.cyclicImport "d" "m" ["m", "d", "m"], some "d"⟩ "d" ∈ s.journal ∧
      (Table.find? s.modules "m").map Module.imports = some [("l", "l")] ∧ ¬ Edge s.modules "m" "d" := by
  intro library s
  have himports : (Table.find? s.modules "m").map Module.imports = some [("l", "l")] := by decide +kernel
  refine ⟨by decide +kernel, himports, ?_⟩
  rintro ⟨name, m, hm, hmem⟩
  rw [hm] at himports
  rw [Option.some.inj himports] at hmem
  simp at hmem

end LazyModules.Engine
