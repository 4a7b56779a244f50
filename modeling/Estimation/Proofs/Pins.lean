import Estimation.Proofs.Standing

/-!
Which versions imports lead to. An import of a module whose code is a program leads to the version that
it is pinned to, and to no other; of code that is no program the pins are not looked at.
-/

namespace Estimation

open List

namespace Project

variable {answer : List String → String → Module → Work Poll} {chain : List String}
  {importer target : String} {is : List Import} {i : Import} {m : Module} {p q : Project}

/-- What the imports lead to that are found while they are gathered. -/
def gatherFound (answer : List String → String → Module → Work Poll) (chain : List String)
    (importer : String) : List Import → Project → List (Import × String × Module)
  | [], _ => []
  | i :: rest, p =>
    match (resolveImport importer i).run p with
    | (.found target m, p) =>
      (i, target, m) ::
        if target ∈ chain then []
        else gatherFound answer chain importer rest ((answer chain target m).run p).2
    | (_, p) => gatherFound answer chain importer rest p

/-- Outputs are only asked of the versions that are found. -/
theorem gather_ready {outcomes : List (Import × ImportOutcome)} {o : Output}
    (hg : ((gather answer chain importer is).run p).1 = .settled outcomes)
    (ho : (i, .ready o) ∈ outcomes) :
    ∃ target m q r, (i, target, m) ∈ gatherFound answer chain importer is p ∧
      (answer chain target m).run q = (.ready o, r) := by
  induction is generalizing p outcomes with
  | nil =>
    cases hg
    cases ho
  | cons j rest ih =>
    rw [gather_cons] at hg
    rw [gatherFound]
    generalize (resolveImport importer j).run p = resolved at hg ⊢
    obtain ⟨target | _ | e, q⟩ := resolved
    · rename_i m
      dsimp only at hg ⊢
      split at hg <;> rename_i hmem
      · cases hg
      · rw [if_neg hmem]
        cases hanswer : (answer chain target m).run q with
        | mk answered r =>
          rw [hanswer] at hg
          cases answered with
          | pending => exact absurd hg addPending_ne_settled
          | ready o' =>
            obtain ⟨others, hothers, rfl⟩ := settled_of_add hg
            rcases mem_cons.1 ho with heq | ho
            · cases heq
              exact ⟨target, m, q, r, mem_cons_self, hanswer⟩
            · obtain ⟨target', m', q', r', hfound, hready⟩ := ih hothers ho
              exact ⟨target', m', q', r', mem_cons_of_mem _ hfound, hready⟩
    · exact absurd hg addPending_ne_settled
    · obtain ⟨others, hothers, rfl⟩ := settled_of_add hg
      rcases mem_cons.1 ho with heq | ho
      · cases heq
      · exact ih hothers ho

theorem find?_of_gatherFound
    (hanswer : ∀ chain target m q, ((answer chain target m).run q).2.sources = q.sources)
    (hfound : (i, target, m) ∈ gatherFound answer chain importer is p) :
    i ∈ is ∧ p.sources.find? ⟨target, i.pin⟩ = some m := by
  induction is generalizing p with
  | nil => cases hfound
  | cons j rest ih =>
    obtain ⟨hquiet, hresolved, -, -, -⟩ := resolveImport_resolves (p := p) importer j
    rw [gatherFound] at hfound
    generalize (resolveImport importer j).run p = resolved at hquiet hresolved hfound
    obtain ⟨found, q⟩ := resolved
    have hsources : q.sources = p.sources := hquiet.sources
    have hrest : ∀ {r : Project}, r.sources = p.sources →
        (i, target, m) ∈ gatherFound answer chain importer rest r →
        i ∈ j :: rest ∧ p.sources.find? ⟨target, i.pin⟩ = some m := by
      intro r hr hi
      obtain ⟨hmem, hfind⟩ := ih hi
      exact ⟨mem_cons_of_mem _ hmem, hr ▸ hfind⟩
    cases found with
    | found target' m' =>
      rcases mem_cons.1 hfound with heq | hfound
      · cases heq
        exact ⟨mem_cons_self, (hresolved target m rfl).2⟩
      · split at hfound
        · cases hfound
        · exact hrest ((hanswer chain target' m' q).trans hsources) hfound
    | pending => exact hrest hsources hfound
    | failed e => exact hrest hsources hfound

/-- What the imports of a module's code lead to is what they are pinned to, and no output of another
version is used for them. Where the code is no program, they lead to what their names stand for. -/
theorem found_pinned (environment : Environment) (limits : Limits) (resolver : Option Resolver)
    (actions : List Action) :
    let p := (start environment limits resolver).perform actions
    ∀ q : Project, q.sources = p.sources → ∀ depth chain name m,
      let imports := p.sources.knownImports name m
      (∀ i target m', (i, target, m') ∈ gatherFound (compute depth) chain name imports q →
        (m.program.isOk → ∀ hash, p.sources.pin? name i.specifier = some hash → m'.hash = hash) ∧
        (¬ m.program.isOk ∨ p.sources.pin? name i.specifier = none →
          p.sources.headModule? target = some m')) ∧
      ∀ outcomes, ((gather (compute depth) chain name imports).run q).1 = .settled outcomes →
        ∀ i o, (i, .ready o) ∈ outcomes → ∃ target m' r s,
          (i, target, m') ∈ gatherFound (compute depth) chain name imports q ∧
          (compute depth chain target m').run r = (.ready o, s) := by
  intro p q hq depth chain name m imports
  have hp : Standing p := (standing_start environment limits resolver).perform actions
  refine ⟨fun i target m' hfound => ?_, fun outcomes hg i o => gather_ready hg⟩
  obtain ⟨hi, hfind⟩ := find?_of_gatherFound
    (fun chain target m q => (compute_later depth chain target m q).sources) hfound
  have hpin := Sources.pin_eq_of_mem_knownImports hi
  rw [hq] at hfind
  refine ⟨fun hok hash hhash => ?_, fun hnone => ?_⟩
  · rw [if_pos hok, hhash] at hpin
    rw [hpin] at hfind
    exact hp.hashes hash m' hfind
  · have hpin : i.pin = none := by
      rw [hpin]
      split
      · rename_i hok
        exact hnone.resolve_left fun h => h hok
      · rfl
    rw [hpin] at hfind
    exact hfind

/-- A module whose code is given goes on from an old version of another one. -/
def pinning (code : String) : List Action :=
  [.setSource "lib" "true", .setSource "lib" "false", .setSource "main" code,
    .setContinues "main" ["lib"], .setPins "main" [("lib", Digest.ofText "true")]]

set_option maxRecDepth 100000 in
theorem found_pinned_old :
    let p := (start .default .default none).perform (pinning "1")
    ∃ i target m', (i, target, m') ∈ gatherFound (compute 3) ["main"] "main"
        (p.sources.knownImports "main" (.ofCode "1")) p ∧
      p.sources.pin? "main" i.specifier = some (Digest.ofText "true") ∧
      p.sources.head? target = some (Digest.ofText "false") ∧ m'.hash = Digest.ofText "true" := by
  intro p
  have hrun : (gatherFound (compute 3) ["main"] "main"
      (p.sources.knownImports "main" (.ofCode "1")) p).map (fun e => (e.1.specifier, e.2.1)) =
        [("lib", "lib")] ∧
      (Module.ofCode "1").program.isOk ∧
      p.sources.pin? "main" "lib" = some (Digest.ofText "true") ∧
      p.sources.head? "lib" = some (Digest.ofText "false") := by
    decide +kernel
  obtain ⟨hfound, hok, hpin, hhead⟩ := hrun
  obtain ⟨⟨i, target, m'⟩, hmem, heq⟩ := mem_map.1 (hfound ▸ mem_cons_self)
  obtain ⟨hi, rfl⟩ := Prod.mk.inj heq
  have hpinned := found_pinned .default .default none (pinning "1") p rfl 3 ["main"] "main"
    (.ofCode "1")
  rw [← hi] at hpin
  exact ⟨i, _, m', hmem, hpin, hhead, (hpinned.1 i _ m' hmem).1 hok _ hpin⟩

set_option maxRecDepth 100000 in
/-- The old version is known, but the code is no program. -/
theorem found_not_pinned :
    let p := (start .default .default none).perform (pinning "(")
    p.sources.pin? "main" "lib" = some (Digest.ofText "true") ∧
      (p.sources.modules.get? (Digest.ofText "true")).isSome ∧
      (gatherFound (compute 3) ["main"] "main" (p.sources.knownImports "main" (.ofCode "(")) p).map
        (fun (i, target, m) => (i.specifier, target, m.hash)) =
          [("lib", "lib", Digest.ofText "false")] := by
  decide +kernel

end Project

end Estimation
