import Mathlib.Order.Defs.PartialOrder
import Mdelay.Library.Transition

/-!
# A room that is handed back

A request names the room it needs and is offered what a variable holds; a request that fits leaves its
own size there. Nothing resets the variable, so the room offered depends on all requests before.
-/

namespace Transition

variable {σ ℓ ρ : Type*} [Preorder ρ]
variable {step : σ → ℓ → Option σ} {room : σ → ρ} {request : ℓ → Option ρ}

/-- A request that fits leaves its size as the room; steps without a request keep the room. -/
structure HandsBack (step : σ → ℓ → Option σ) (room : σ → ρ) (request : ℓ → Option ρ) : Prop where
  served : ∀ {s l t d}, step s l = some t → request l = some d → d ≤ room s → room t = d
  idle : ∀ {s l t}, step s l = some t → request l = none → room t = room s

def Fits (room : σ → ρ) (request : ℓ → Option ρ) (s : σ) (l : ℓ) : Prop := ∀ d ∈ request l, d ≤ room s

/-- In a run every request fits exactly when each is at most what is left by the one before. -/
theorem run_fits_iff (hands : HandsBack step room request) {s t : σ} {ls : List ℓ} (run : Run step Any s ls t) :
    Run step (Fits room request) s ls t ↔ (room s :: ls.filterMap request).IsChain (· ≥ ·) := by
  induction ls generalizing s with
  | nil => exact iff_of_true run (List.IsChain.singleton _)
  | cons l ls ih =>
    obtain ⟨-, u, taken, rest⟩ := run
    rw [run_cons_of_taken taken, ih rest]
    cases asked : request l with
    | none =>
      rw [List.filterMap_cons_none asked, hands.idle taken asked]
      refine and_iff_right fun d wanted => ?_
      rw [asked] at wanted
      cases wanted
    | some d =>
      have fits : Fits room request s l ↔ d ≤ room s := by
        rw [Fits, asked]
        refine ⟨fun all => all d rfl, fun enough d' wanted => ?_⟩
        obtain rfl := Option.some.inj wanted
        exact enough
      rw [List.filterMap_cons_some asked, List.isChain_cons_cons, fits]
      exact and_congr_right fun enough => by rw [hands.served taken asked enough]

/-- Requests that all fit into the room at the start: none may need more than one before it. -/
theorem run_fits_iff_pairwise (hands : HandsBack step room request) {s t : σ} {ls : List ℓ}
    (run : Run step Any s ls t) (bounded : ∀ d ∈ ls.filterMap request, d ≤ room s) :
    Run step (Fits room request) s ls t ↔ (ls.filterMap request).Pairwise (· ≥ ·) := by
  rw [run_fits_iff hands run, List.isChain_iff_pairwise, List.pairwise_cons]
  exact and_iff_right bounded

end Transition
