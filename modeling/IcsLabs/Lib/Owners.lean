import Mathlib.Logic.Function.Basic

namespace Owners

variable {κ ρ : Type}

-- the table of the resources in use and what each owner has agree
def Tracks (holder : ρ → Option κ) (own : κ → Option ρ) : Prop :=
  ∀ r k, holder r = some k ↔ own k = some r

variable {holder : ρ → Option κ} {own : κ → Option ρ} {r q : ρ} {k l : κ}

theorem Tracks.free (h : Tracks holder own) (hr : holder r = none) (k : κ) : own k ≠ some r :=
  fun hk => by rw [(h r k).mpr hk] at hr; cases hr

theorem Tracks.unique (h : Tracks holder own) (hk : own k = some r) (hl : own l = some r) : k = l :=
  Option.some.inj (((h r k).mpr hk).symm.trans ((h r l).mpr hl))

variable [DecidableEq κ] [DecidableEq ρ]

theorem Tracks.acquire (h : Tracks holder own) (hr : holder r = none) (hk : own k = none) :
    Tracks (Function.update holder r (some k)) (Function.update own k (some r)) := by
  intro q l
  by_cases hq : q = r
  · subst hq
    rw [Function.update_self,Option.some.injEq]
    by_cases hl : l = k
    · simp [hl]
    · rw [Function.update_of_ne hl]
      exact ⟨fun he => absurd he.symm hl,fun he => absurd he (h.free hr l)⟩
  · rw [Function.update_of_ne hq,h q l]
    by_cases hl : l = k
    · simp [hl,hk,Ne.symm hq]
    · rw [Function.update_of_ne hl]

theorem Tracks.release (h : Tracks holder own) (hk : own k = some r) :
    Tracks (Function.update holder r none) (Function.update own k none) := by
  intro q l
  by_cases hq : q = r
  · subst hq
    rw [Function.update_self]
    by_cases hl : l = k
    · simp [hl]
    · rw [Function.update_of_ne hl]
      exact ⟨fun he => (nomatch he),fun he => absurd (h.unique he hk) hl⟩
  · rw [Function.update_of_ne hq,h q l]
    by_cases hl : l = k
    · simp [hl,hk,Ne.symm hq]
    · rw [Function.update_of_ne hl]

theorem Tracks.pass (h : Tracks holder own) (hk : own k = some r) (hl : own l = none) :
    Tracks (Function.update holder r (some l))
      (Function.update (Function.update own k none) l (some r)) := by
  have hkl : l ≠ k := by
    rintro rfl
    rw [hl] at hk
    cases hk
  have hp := (h.release hk).acquire (Function.update_self r none holder)
    ((Function.update_of_ne hkl none own).trans hl)
  rwa [Function.update_idem] at hp

end Owners
