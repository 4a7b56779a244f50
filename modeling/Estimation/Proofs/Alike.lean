import Estimation.Value
import Mathlib.Data.List.Forall2

/-!
Values that are alike: they differ in their functions only, and these are related. Whatever can be
seen of such values is the same, as far as it is the same of the functions.
-/

namespace Estimation

open List

variable {β γ : Type}

inductive EntryAlike {α δ : Type} (R : α → δ → Prop) : String × α → String × δ → Prop
  | intro {key v w} : R v w → EntryAlike R (key, v) (key, w)

inductive ValueOf.Alike (F : LambdaOf β → LambdaOf γ → Prop) : ValueOf β → ValueOf γ → Prop
  | void : Alike F .void .void
  | number (x) : Alike F (.number x) (.number x)
  | string (s) : Alike F (.string s) (.string s)
  | bool (b) : Alike F (.bool b) (.bool b)
  | list {vs ws} : Forall₂ (Alike F) vs ws → Alike F (.list vs) (.list ws)
  | dict {es fs} : Forall₂ (EntryAlike (Alike F)) es fs → Alike F (.dict es) (.dict fs)
  | lambda {f g} : F f g → Alike F (.lambda f) (.lambda g)
  | samples (s) : Alike F (.samples s) (.samples s)

/-- Two related functions are the same library function, or closures that look the same; and
which functions are the same function is seen alike on both sides. -/
structure Respects (F : LambdaOf β → LambdaOf γ → Prop) : Prop where
  native : ∀ f, F (.native f) (.native f)
  shape : ∀ {f g}, F f g → (∃ h, f = .native h ∧ g = .native h) ∨
    ∃ i j name parameters vs ws b c span, f = .closure i name parameters vs b span ∧
      g = .closure j name parameters ws c span
  same : ∀ {f g f' g'}, F f g → F f' g' → f.same f' = g.same g'

namespace Respects

variable {F : LambdaOf β → LambdaOf γ → Prop} {f : LambdaOf β} {g : LambdaOf γ}

theorem name (hF : Respects F) (h : F f g) : f.name = g.name := by
  rcases hF.shape h with ⟨h, rfl, rfl⟩ | ⟨i, j, name, parameters, vs, ws, b, c, span, rfl, rfl⟩ <;> rfl

theorem parameterCount? (hF : Respects F) (h : F f g) :
    f.parameterCount? = g.parameterCount? := by
  rcases hF.shape h with ⟨h, rfl, rfl⟩ | ⟨i, j, name, parameters, vs, ws, b, c, span, rfl, rfl⟩ <;> rfl

theorem text (hF : Respects F) (h : F f g) : f.text = g.text := by
  rcases hF.shape h with ⟨h, rfl, rfl⟩ | ⟨i, j, name, parameters, vs, ws, b, c, span, rfl, rfl⟩ <;> rfl

end Respects

namespace ValueOf.Alike

variable {F : LambdaOf β → LambdaOf γ → Prop}

theorem typeName_eq {v : ValueOf β} {w : ValueOf γ} (h : Alike F v w) : v.typeName = w.typeName := by
  cases h <;> rfl

mutual

theorem text_eq (hF : Respects F) : ∀ {v : ValueOf β} {w : ValueOf γ}, Alike F v w → v.text = w.text
  | .void, _, .void => rfl
  | .number _, _, .number _ => rfl
  | .string _, _, .string _ => rfl
  | .bool _, _, .bool _ => rfl
  | .list _, _, .list h => by simp only [ValueOf.text, texts_eq hF h]
  | .dict _, _, .dict h => by simp only [ValueOf.text, entryTexts_eq hF h]
  | .lambda _, _, .lambda h => by simp only [ValueOf.text, hF.text h]
  | .samples _, _, .samples _ => rfl

theorem texts_eq (hF : Respects F) : ∀ {vs : List (ValueOf β)} {ws : List (ValueOf γ)},
    Forall₂ (Alike F) vs ws → texts vs = texts ws
  | [], _, .nil => rfl
  | _ :: _, _, .cons h hs => by simp only [texts, text_eq hF h, texts_eq hF hs]

theorem entryTexts_eq (hF : Respects F) :
    ∀ {es : List (String × ValueOf β)} {fs : List (String × ValueOf γ)},
    Forall₂ (EntryAlike (Alike F)) es fs → entryTexts es = entryTexts fs
  | [], _, .nil => rfl
  | (_, _) :: _, _, .cons (.intro h) hs => by
    simp only [entryTexts, text_eq hF h, entryTexts_eq hF hs]

end

theorem plainText_eq (hF : Respects F) {v : ValueOf β} {w : ValueOf γ} (h : Alike F v w) :
    v.plainText = w.plainText := by
  cases h with
  | string s => rfl
  | list h => exact text_eq hF (.list h)
  | dict h => exact text_eq hF (.dict h)
  | lambda h => exact text_eq hF (.lambda h)
  | _ => rfl

mutual

theorem equal_eq (hF : Respects F) : ∀ {v : ValueOf β} {w : ValueOf γ} {v' : ValueOf β}
    {w' : ValueOf γ}, Alike F v w → Alike F v' w' → v.equal v' = w.equal w'
  | .void, _, _, _, .void, h' => by cases h' <;> rfl
  | .number _, _, _, _, .number _, h' => by cases h' <;> rfl
  | .string _, _, _, _, .string _, h' => by cases h' <;> rfl
  | .bool _, _, _, _, .bool _, h' => by cases h' <;> rfl
  | .list _, _, _, _, .list h, h' => by
    cases h' with
    | list h' => simp only [ValueOf.equal, equalAll_eq hF h h']
    | _ => rfl
  | .dict _, _, _, _, .dict h, h' => by
    cases h' with
    | dict h' => simp only [ValueOf.equal, equalEntries_eq hF h h']
    | _ => rfl
  | .lambda _, _, _, _, .lambda h, h' => by
    cases h' with
    | lambda h' => simp only [ValueOf.equal, hF.same h h']
    | _ => rfl
  | .samples _, _, _, _, .samples _, h' => by cases h' <;> rfl

theorem equalAll_eq (hF : Respects F) : ∀ {vs : List (ValueOf β)} {ws : List (ValueOf γ)}
    {vs' : List (ValueOf β)} {ws' : List (ValueOf γ)}, Forall₂ (Alike F) vs ws →
    Forall₂ (Alike F) vs' ws' → equalAll vs vs' = equalAll ws ws'
  | [], _, _, _, .nil, h' => by cases h' <;> rfl
  | _ :: _, _, _, _, .cons h hs, h' => by
    cases h' with
    | nil => rfl
    | cons h' hs' => simp only [equalAll, equal_eq hF h h', equalAll_eq hF hs hs']

theorem equalEntries_eq (hF : Respects F) :
    ∀ {es : List (String × ValueOf β)} {fs : List (String × ValueOf γ)}
    {es' : List (String × ValueOf β)} {fs' : List (String × ValueOf γ)},
    Forall₂ (EntryAlike (Alike F)) es fs → Forall₂ (EntryAlike (Alike F)) es' fs' →
    equalEntries es es' = equalEntries fs fs'
  | [], _, _, _, .nil, h' => by cases h' <;> rfl
  | (_, _) :: _, _, _, _, .cons (.intro h) hs, h' => by
    cases h' with
    | nil => rfl
    | cons h' hs' =>
      cases h' with
      | intro h' => simp only [equalEntries, equal_eq hF h h', equalEntries_eq hF hs hs']

end

end ValueOf.Alike

end Estimation
