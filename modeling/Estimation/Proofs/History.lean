import Estimation.Proofs.Actions
import Estimation.Proofs.Requests

/-!
What may have happened to a project whose imports are never pinned, with everything that was worked
into a digest on the way.
-/

namespace Estimation

open List

/-- What digests are made of. -/
inductive Hashed where
  | code (s : String)
  | environment (e : Environment)
  | key (k : OutputKey)

namespace Hashed

def bytes : Hashed → List UInt8
  | code s => s.toUTF8.data.toList
  | environment e => e.json.text.toUTF8.data.toList
  | key k => k.parts.flatMap OutputKey.framed

end Hashed

namespace Gathered

/-- The key of the output that is made next, if one is. -/
def key? (name : String) (m : Module) (e : Environment) : Gathered → Option OutputKey
  | settled outcomes => some (m.outputKey name e outcomes)
  | pending => none
  | cyclic i _ => some ⟨name, m.hash, e.hash, [.cyclic i.specifier]⟩

end Gathered

namespace Project

section

variable (answer : List String → String → Module → Work Poll)
  (hashes : List String → String → Module → Project → List Hashed)

def gatherHashes (chain : List String) (importer : String) : List Import → Project → List Hashed
  | [], _ => []
  | i :: rest, p =>
    match (resolveImport importer i).run p with
    | (.found target m, p) =>
      if target ∈ chain then []
      else
        hashes chain target m p ++
          gatherHashes chain importer rest ((answer chain target m).run p).2
    | (_, p) => gatherHashes chain importer rest p

end

/-- What `compute` works into digests. -/
def computeHashes : Nat → List String → String → Module → Project → List Hashed
  | 0, _, _, _, _ => []
  | depth + 1, chain, name, m, p =>
    let imports := p.sources.knownImports name m
    let gathered := (gather (compute depth) (chain ++ [name]) name imports).run p
    gatherHashes (compute depth) (computeHashes depth) (chain ++ [name]) name imports p ++
      match gathered.1.key? name m p.environment with
      | some k => [.environment p.environment, .key k]
      | none => []

def pollHashes (name : String) (p : Project) : List Hashed :=
  match p.sources.headModule? name with
  | some m => computeHashes p.sources.reach [] name m p
  | none => []

def loadHashes : Except LinkError Module → List Hashed
  | .ok m => [.code m.code]
  | .error _ => []

/-- Whether no output is there that would be left without an output of `name` below it. -/
def Removable (p : Project) (name : String) : Prop :=
  ∀ n ∈ p.affectedBy name, n ≠ name → p.store.outputsOf n = []

end Project

open Project in
/-- Everything that may happen to a project whose imports are never pinned. In a coherent history
outputs are not cleaned away from below others. -/
inductive History (coherent : Prop) : List Hashed → Project → Prop
  | start (environment limits resolver) :
      History coherent [] (Project.start environment limits resolver)
  | setSource {l p} (name code) : History coherent l p →
      History coherent (l ++ [.code code]) (p.setSource name code)
  | removeSource {l p} (name) : History coherent l p → History coherent l (p.removeSource name)
  | moveHead {l p p' name hash} : History coherent l p → p.moveHead name hash = .ok p' →
      History coherent l p'
  | setContinues {l p} (name names) : History coherent l p →
      History coherent l (p.setContinues name names)
  | setEnvironment {l p} (e) : History coherent l p → History coherent l (p.setEnvironment e)
  | clean {l p name} : History coherent l p → (coherent → p.Removable name) →
      History coherent l (p.clean name)
  | cleanAll {l p} : History coherent l p → History coherent l p.cleanAll
  | poll {l p} (name) : History coherent l p →
      History coherent (l ++ pollHashes name p) ((poll name).run p).2
  | startLoad {l p} (key) : History coherent l p →
      History coherent l ((startLoad key []).run p).2
  | finishLoad {l p} (key result) : History coherent l p →
      History coherent (l ++ loadHashes result) (p.finishLoad key result)

/-- Requests that take several rounds are part of histories too. -/
theorem History.steady (coherent : Prop) (l : List Hashed) :
    Project.Steady fun p => ∃ more, History coherent (l ++ more) p where
  poll name := by
    rintro p ⟨more, h⟩
    exact ⟨more ++ Project.pollHashes name p, append_assoc .. ▸ h.poll name⟩
  startLoad key := by
    rintro p ⟨more, h⟩
    exact ⟨more, h.startLoad key⟩
  finishLoad key result := by
    rintro p - ⟨more, h⟩
    exact ⟨more ++ Project.loadHashes result, append_assoc .. ▸ h.finishLoad key result⟩

/-- Nothing is pinned. -/
theorem History.pins {coherent : Prop} {l : List Hashed} {p : Project} (h : History coherent l p) :
    p.sources.pins = [] := by
  induction h with
  | start => rfl
  | removeSource name _ ih => exact congrArg (Table.erase name) ih
  | moveHead _ hmove ih =>
    rw [Project.moveHead] at hmove
    split at hmove <;> cases hmove
    exact ih
  | poll name _ ih =>
    exact (congrArg Sources.pins (Project.poll_later name _).sources).trans ih
  | startLoad key _ ih =>
    exact (congrArg Sources.pins (Project.Quiet.startLoad_nil key).sources).trans ih
  | _ => assumption

end Estimation
