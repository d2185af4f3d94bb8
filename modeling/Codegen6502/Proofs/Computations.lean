import Codegen6502.Error
import Mathlib.Data.List.Induction
import Std.Data.TreeMap

/-!
# Computations that succeed, and tables

What is known of the parts of a computation that may fail once the whole of it has succeeded, and
the values of a table.
-/

namespace Codegen6502.Proofs.Computations

variable {α β σ : Type}

theorem bind_eq_ok {c : Compile α} {f : α → Compile β} {b : β} :
    (c >>= f) = .ok b ↔ ∃ a, c = .ok a ∧ f a = .ok b := by
  constructor
  · intro h
    cases c with
    | ok a => exact ⟨a, rfl, h⟩
    | error e => cases h
  · rintro ⟨a, rfl, h⟩
    exact h

theorem bind_eq_error {c : Compile α} {f : α → Compile β} {e : CompileError} :
    (c >>= f) = .error e ↔ c = .error e ∨ ∃ a, c = .ok a ∧ f a = .error e := by
  cases c with
  | ok a =>
    change f a = .error e ↔ _
    simp
  | error e' =>
    change Except.error e' = .error e ↔ _
    simp

/-- A computation whose result passes a test has a result. -/
theorem ok_of_any {c : Compile α} {p : α → Bool} (h : c.toOption.any p = true) :
    ∃ a, c = .ok a ∧ p a = true := by
  cases c with
  | ok a => exact ⟨a, rfl, h⟩
  | error e => cases h

/-- **A loop that succeeds** keeps what each of its rounds keeps.  The invariant sees the elements
that have been done. -/
theorem foldlM_invariant {f : σ → α → Compile σ} {all : List α} {s t : σ}
    (h : all.foldlM f s = .ok t) (Inv : List α → σ → Prop) (start : Inv [] s)
    (step : ∀ done a rest u v, all = done ++ a :: rest → Inv done u → f u a = .ok v →
      Inv (done ++ [a]) v) : Inv all t := by
  suffices key : ∀ (rest done : List α) (u : σ), all = done ++ rest → Inv done u →
      rest.foldlM f u = .ok t → Inv all t from key all [] s rfl start h
  intro rest
  induction rest with
  | nil =>
    intro done u hsplit hinv hrun
    rw [List.append_nil] at hsplit
    cases hrun
    exact hsplit ▸ hinv
  | cons a rest ih =>
    intro done u hsplit hinv hrun
    rw [List.foldlM_cons] at hrun
    obtain ⟨v, hv, hrest⟩ := bind_eq_ok.mp hrun
    exact ih (done ++ [a]) v (by simp [hsplit]) (step done a rest u v hsplit hinv hv) hrest

/-- The rounds of a map that succeeds. -/
theorem mapM_eq_ok {f : α → Compile β} : ∀ {as : List α} {bs : List β}, as.mapM f = .ok bs →
    List.Forall₂ (fun a b => f a = .ok b) as bs
  | [], bs, h => by cases h; exact .nil
  | a :: as, bs, h => by
    rw [List.mapM_cons] at h
    obtain ⟨b, hb, h⟩ := bind_eq_ok.mp h
    obtain ⟨rest, hrest, h⟩ := bind_eq_ok.mp h
    cases h
    exact .cons hb (mapM_eq_ok hrest)

/-- **Checks of which one fails** come to the first failure. -/
theorem forM_first {f : α → Compile Unit} : ∀ {as : List α}, (∃ a ∈ as, f a ≠ .ok ()) →
    ∃ front a back, as = front ++ a :: back ∧ (∀ b ∈ front, f b = .ok ()) ∧ f a ≠ .ok () ∧
      as.forM f = f a
  | [], ⟨_, ha, _⟩ => absurd ha List.not_mem_nil
  | a :: rest, hfails => by
    have hforM : (a :: rest).forM f = f a >>= fun _ => rest.forM f := rfl
    rw [hforM]
    cases hfirst : f a with
    | error e =>
      exact ⟨[], a, rest, rfl, by simp, by rw [hfirst]; exact fun h => (by cases h), hfirst.symm⟩
    | ok u =>
      obtain ⟨b, hb, hne⟩ := hfails
      have hb' : b ∈ rest := (List.mem_cons.mp hb).resolve_left fun heq => hne (heq ▸ hfirst)
      obtain ⟨front, c, back, hsplit, hfront, hc, hrun⟩ := forM_first ⟨b, hb', hne⟩
      refine ⟨a :: front, c, back, by rw [hsplit, List.cons_append], fun d hd => ?_, hc, hrun⟩
      rcases List.mem_cons.mp hd with rfl | hd
      · exact hfirst
      · exact hfront d hd

/-! ### Tables -/

theorem values_eq {α β : Type} [Ord α] (t : Std.TreeMap α β) : t.values = t.toList.map (·.2) := by
  have hfold : t.values = t.foldr (fun _ v l => v :: l) [] := rfl
  rw [hfold, Std.TreeMap.foldr_eq_foldr_toList]
  induction t.toList with
  | nil => rfl
  | cons entry rest ih => rw [List.foldr_cons, List.map_cons, ih]

theorem mem_values {α β : Type} [Ord α] [Std.TransOrd α] [Std.LawfulEqOrd α]
    {t : Std.TreeMap α β} {b : β} : b ∈ t.values ↔ ∃ a : α, t[a]? = some b := by
  rw [values_eq, List.mem_map]
  constructor
  · rintro ⟨⟨a, b'⟩, hmem, rfl⟩
    exact ⟨a, Std.TreeMap.mem_toList_iff_getElem?_eq_some.mp hmem⟩
  · rintro ⟨a, ha⟩
    exact ⟨(a, b), Std.TreeMap.mem_toList_iff_getElem?_eq_some.mpr ha, rfl⟩

end Codegen6502.Proofs.Computations
