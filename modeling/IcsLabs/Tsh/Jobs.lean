import Mathlib.Data.Fin.Tuple.Basic
import Mathlib.Logic.Function.Basic
import Mathlib.Data.Fintype.Basic

namespace Tsh

abbrev maxJobs : Nat := 16

inductive JobState
  | undef
  | fg
  | bg
  | st
deriving DecidableEq

structure Job where
  pid : Int
  jid : Int
  state : JobState
  cmdline : List Char
deriving DecidableEq

-- the globals jobs and nextjid; job ids are exact integers
structure Jobs where
  slot : Fin maxJobs → Job
  nextjid : Int

def clearjob : Job := ⟨0,0,.undef,[]⟩

def initjobs : Jobs := ⟨fun _ => clearjob,1⟩

def maxjid (t : Jobs) : Int :=
  (List.finRange maxJobs).foldl (fun max i => if (t.slot i).jid > max then (t.slot i).jid else max) 0

def setSlot (i : Fin maxJobs) (job : Job) (t : Jobs) : Jobs :=
  { t with slot := Function.update t.slot i job }

def addjob (pid : Int) (state : JobState) (cmdline : List Char) (t : Jobs) : Bool × Jobs :=
  if pid < 1 then (false,t)
  else
    match Fin.find? fun i => (t.slot i).pid == 0 with
    | none => (false,t)
    | some i =>
      let next := t.nextjid + 1
      (true,{ setSlot i ⟨pid,t.nextjid,state,cmdline⟩ t with
        nextjid := if next > maxJobs then 1 else next })

def deletejob (pid : Int) (t : Jobs) : Bool × Jobs :=
  if pid < 1 then (false,t)
  else
    match Fin.find? fun i => (t.slot i).pid == pid with
    | none => (false,t)
    | some i =>
      let t := setSlot i clearjob t
      (true,{ t with nextjid := maxjid t + 1 })

def fgpid (t : Jobs) : Int :=
  match Fin.find? fun i => (t.slot i).state == .fg with
  | none => 0
  | some i => (t.slot i).pid

def getjobpid (pid : Int) (t : Jobs) : Option (Fin maxJobs) :=
  if pid < 1 then none else Fin.find? fun i => (t.slot i).pid == pid

def getjobjid (jid : Int) (t : Jobs) : Option (Fin maxJobs) :=
  if jid < 1 then none else Fin.find? fun i => (t.slot i).jid == jid

variable {t u : Jobs} {i j : Fin maxJobs} {pid jid : Int} {state : JobState} {cmdline : List Char}

@[simp] theorem setSlot_nextjid (i : Fin maxJobs) (job : Job) (t : Jobs) :
    (setSlot i job t).nextjid = t.nextjid := rfl

@[simp] theorem setSlot_self (i : Fin maxJobs) (job : Job) (t : Jobs) :
    (setSlot i job t).slot i = job := Function.update_self ..

@[simp] theorem setSlot_ne (h : j ≠ i) (job : Job) (t : Jobs) :
    (setSlot i job t).slot j = t.slot j := Function.update_of_ne h ..

theorem find_slot_some {p : Fin maxJobs → Bool} (h : Fin.find? p = some i) : p i = true :=
  Fin.eq_true_of_find?_eq_some h

theorem jid_le_maxjid (i : Fin maxJobs) (t : Jobs) : (t.slot i).jid ≤ maxjid t ∧ 0 ≤ maxjid t := by
  have hfold (l : List (Fin maxJobs)) (max : Int) :
      max ≤ l.foldl (fun max i => if (t.slot i).jid > max then (t.slot i).jid else max) max ∧
        ∀ i ∈ l, (t.slot i).jid ≤
          l.foldl (fun max i => if (t.slot i).jid > max then (t.slot i).jid else max) max := by
    induction l generalizing max with
    | nil => simp
    | cons k l ih =>
      have hk : max ≤ (if (t.slot k).jid > max then (t.slot k).jid else max) ∧
          (t.slot k).jid ≤ (if (t.slot k).jid > max then (t.slot k).jid else max) := by
        split <;> omega
      obtain ⟨hle,hmem⟩ := ih (if (t.slot k).jid > max then (t.slot k).jid else max)
      simp only [List.foldl_cons]
      refine ⟨hk.1.trans hle,fun i hi => ?_⟩
      rcases List.mem_cons.mp hi with rfl | hi
      · exact hk.2.trans hle
      · exact hmem i hi
  obtain ⟨hle,hmem⟩ := hfold (List.finRange maxJobs) 0
  exact ⟨hmem i (List.mem_finRange i),hle⟩

theorem addjob_spec (pid : Int) (state : JobState) (cmdline : List Char) (t : Jobs) :
    addjob pid state cmdline t = (false,t) ∧ (pid < 1 ∨ ∀ i, (t.slot i).pid ≠ 0) ∨
    1 ≤ pid ∧ ∃ i, (t.slot i).pid = 0 ∧ addjob pid state cmdline t =
      (true,{ setSlot i ⟨pid,t.nextjid,state,cmdline⟩ t with
        nextjid := if t.nextjid + 1 > maxJobs then 1 else t.nextjid + 1 }) := by
  by_cases hp : pid < 1
  · exact .inl ⟨by simp [addjob,hp],.inl hp⟩
  · simp only [addjob,if_neg hp]
    cases hf : Fin.find? fun i => (t.slot i).pid == 0 with
    | none => exact .inl ⟨rfl,.inr fun i => by simpa using Fin.eq_false_of_find?_eq_none hf i⟩
    | some i => exact .inr ⟨by omega,i,by simpa using find_slot_some hf,rfl⟩

theorem addjob_eq (state : JobState) (cmdline : List Char) (hp : 1 ≤ pid) (hi : (t.slot i).pid = 0) :
    ∃ i, (t.slot i).pid = 0 ∧ addjob pid state cmdline t =
      (true,{ setSlot i ⟨pid,t.nextjid,state,cmdline⟩ t with
        nextjid := if t.nextjid + 1 > maxJobs then 1 else t.nextjid + 1 }) := by
  obtain ⟨-,h | h⟩ | ⟨-,h⟩ := addjob_spec pid state cmdline t
  · omega
  · exact absurd hi (h i)
  · exact h

theorem deletejob_spec (pid : Int) (t : Jobs) :
    deletejob pid t = (false,t) ∧ (pid < 1 ∨ ∀ i, (t.slot i).pid ≠ pid) ∨
    1 ≤ pid ∧ ∃ i, (t.slot i).pid = pid ∧ deletejob pid t =
      (true,{ setSlot i clearjob t with nextjid := maxjid (setSlot i clearjob t) + 1 }) := by
  by_cases hp : pid < 1
  · exact .inl ⟨by simp [deletejob,hp],.inl hp⟩
  · simp only [deletejob,if_neg hp]
    cases hf : Fin.find? fun i => (t.slot i).pid == pid with
    | none => exact .inl ⟨rfl,.inr fun i => by simpa using Fin.eq_false_of_find?_eq_none hf i⟩
    | some i => exact .inr ⟨by omega,i,by simpa using find_slot_some hf,rfl⟩

theorem getjobpid_some (h : getjobpid pid t = some i) : 1 ≤ pid ∧ (t.slot i).pid = pid := by
  rw [getjobpid] at h
  split at h
  · cases h
  · exact ⟨by omega,by simpa using find_slot_some h⟩

theorem getjobpid_none (h : getjobpid pid t = none) (hp : 1 ≤ pid) : (t.slot i).pid ≠ pid := by
  rw [getjobpid,if_neg (by omega)] at h
  simpa using Fin.eq_false_of_find?_eq_none h i

theorem getjobjid_some (h : getjobjid jid t = some i) : 1 ≤ jid ∧ (t.slot i).jid = jid := by
  rw [getjobjid] at h
  split at h
  · cases h
  · exact ⟨by omega,by simpa using find_slot_some h⟩

theorem getjobjid_none (h : getjobjid jid t = none) (hj : 1 ≤ jid) : (t.slot i).jid ≠ jid := by
  rw [getjobjid,if_neg (by omega)] at h
  simpa using Fin.eq_false_of_find?_eq_none h i

theorem getjobpid_of_mem (hp : 1 ≤ (t.slot i).pid) :
    ∃ j, getjobpid (t.slot i).pid t = some j ∧ (t.slot j).pid = (t.slot i).pid := by
  cases h : getjobpid (t.slot i).pid t with
  | none => exact absurd rfl (getjobpid_none h hp)
  | some j => exact ⟨j,rfl,(getjobpid_some h).2⟩

theorem getjobjid_of_mem (hj : 1 ≤ (t.slot i).jid) :
    ∃ j, getjobjid (t.slot i).jid t = some j ∧ (t.slot j).jid = (t.slot i).jid := by
  cases h : getjobjid (t.slot i).jid t with
  | none => exact absurd rfl (getjobjid_none h hj)
  | some j => exact ⟨j,rfl,(getjobjid_some h).2⟩

theorem fgpid_of_fg (hi : (t.slot i).state = .fg) :
    ∃ j, (t.slot j).state = .fg ∧ fgpid t = (t.slot j).pid := by
  unfold fgpid
  cases hf : Fin.find? fun i => (t.slot i).state == .fg with
  | none => simpa [hi] using Fin.eq_false_of_find?_eq_none hf i
  | some j => exact ⟨j,by simpa using find_slot_some hf,rfl⟩

theorem fg_of_fgpid (h : fgpid t ≠ 0) : ∃ i, (t.slot i).state = .fg := by
  unfold fgpid at h
  cases hf : Fin.find? fun i => (t.slot i).state == .fg with
  | none => simp [hf] at h
  | some i => exact ⟨i,by simpa using find_slot_some hf⟩

-- a slot has a job id exactly when it has a pid
structure Numbered (t : Jobs) : Prop where
  next : 1 ≤ t.nextjid
  free : ∀ i, (t.slot i).pid = 0 → (t.slot i).jid = 0
  used : ∀ i, (t.slot i).pid ≠ 0 → 1 ≤ (t.slot i).jid

theorem numbered_initjobs : Numbered initjobs := ⟨le_refl 1,fun _ _ => rfl,fun _ h => absurd rfl h⟩

theorem numbered_addjob (h : Numbered t) : Numbered (addjob pid state cmdline t).2 := by
  obtain ⟨he,-⟩ | ⟨hp,i,-,he⟩ := addjob_spec pid state cmdline t
  · rw [he]
    exact h
  · rw [he]
    have hn := h.next
    refine ⟨?_,fun j hj => ?_,fun j hj => ?_⟩
    · dsimp only
      split <;> omega
    · rcases eq_or_ne j i with rfl | hji
      · simp only [setSlot_self] at hj
        omega
      · simp only [setSlot_ne hji] at hj ⊢
        exact h.free j hj
    · rcases eq_or_ne j i with rfl | hji
      · simpa using hn
      · simp only [setSlot_ne hji] at hj ⊢
        exact h.used j hj

theorem numbered_deletejob (h : Numbered t) : Numbered (deletejob pid t).2 := by
  obtain ⟨he,-⟩ | ⟨hp,i,-,he⟩ := deletejob_spec pid t
  · rw [he]
    exact h
  · rw [he]
    refine ⟨?_,fun j hj => ?_,fun j hj => ?_⟩
    · have hm := (jid_le_maxjid i (setSlot i clearjob t)).2
      dsimp only
      omega
    · rcases eq_or_ne j i with rfl | hji
      · simp [clearjob]
      · simp only [setSlot_ne hji] at hj ⊢
        exact h.free j hj
    · rcases eq_or_ne j i with rfl | hji
      · simp [clearjob] at hj
      · simp only [setSlot_ne hji] at hj ⊢
        exact h.used j hj

end Tsh
