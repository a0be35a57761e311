import IcsLabs.Tsh.Jobs
import Mathlib.Data.List.Induction

namespace Tsh

inductive Call
  | addjob (pid : Int) (state : JobState) (cmdline : List Char)
  | deletejob (pid : Int)

def exec (t : Jobs) : Call → Jobs
  | .addjob pid state cmdline => (addjob pid state cmdline t).2
  | .deletejob pid => (deletejob pid t).2

def after (cs : List Call) : Jobs := cs.foldl exec initjobs

-- occupied slots have distinct job ids, and getjobjid finds each by its own
def Identified (t : Jobs) : Prop :=
  (∀ i j, (t.slot i).pid ≠ 0 → (t.slot j).pid ≠ 0 → (t.slot i).jid = (t.slot j).jid → i = j) ∧
    ∀ i, (t.slot i).pid ≠ 0 → getjobjid (t.slot i).jid t = some i

-- an addjob about to fill a free slot takes a job id that no slot has
def FreshId (t : Jobs) : Call → Prop
  | .addjob pid _ _ => 1 ≤ pid → (∃ i, (t.slot i).pid = 0) → getjobjid t.nextjid t = none
  | .deletejob _ => True

theorem after_snoc (cs : List Call) (c : Call) : after (cs ++ [c]) = exec (after cs) c :=
  List.foldl_concat ..

theorem numbered_after (cs : List Call) : Numbered (after cs) := by
  induction cs using List.reverseRecOn with
  | nil => exact numbered_initjobs
  | append_singleton cs c ih =>
    rw [after_snoc]
    cases c with
    | addjob pid state cmdline => exact numbered_addjob ih
    | deletejob pid => exact numbered_deletejob ih

variable {t : Jobs}

theorem identified_of_distinct (hn : Numbered t)
    (hd : ∀ i j, (t.slot i).pid ≠ 0 → (t.slot j).pid ≠ 0 → (t.slot i).jid = (t.slot j).jid → i = j) :
    Identified t := by
  refine ⟨hd,fun i hi => ?_⟩
  obtain ⟨j,hj,he⟩ := getjobjid_of_mem (hn.used i hi)
  have hpj : (t.slot j).pid ≠ 0 := fun h0 => by
    have hj0 := hn.free j h0
    have hi1 := hn.used i hi
    omega
  exact hd j i hpj hi he ▸ hj

theorem identified_exec (hn : Numbered t) (hi : Identified t) {c : Call} (hc : FreshId t c) :
    ∀ i j, ((exec t c).slot i).pid ≠ 0 → ((exec t c).slot j).pid ≠ 0 →
      ((exec t c).slot i).jid = ((exec t c).slot j).jid → i = j := by
  intro i j hpi hpj hij
  cases c with
  | addjob pid state cmdline =>
    obtain ⟨he,-⟩ | ⟨hp,k,hk,he⟩ := addjob_spec pid state cmdline t
    · simp only [exec,he] at hpi hpj hij
      exact hi.1 i j hpi hpj hij
    · have hfresh (m : Fin maxJobs) : (t.slot m).jid ≠ t.nextjid :=
        getjobjid_none (hc hp ⟨k,hk⟩) hn.next
      simp only [exec,he] at hpi hpj hij
      rcases eq_or_ne i k with rfl | hik
      · rcases eq_or_ne j i with rfl | hji
        · rfl
        · simp only [setSlot_self,setSlot_ne hji] at hij
          exact absurd hij.symm (hfresh j)
      · rcases eq_or_ne j k with rfl | hjk
        · simp only [setSlot_self,setSlot_ne hik] at hij
          exact absurd hij (hfresh i)
        · simp only [setSlot_ne hik,setSlot_ne hjk] at hpi hpj hij
          exact hi.1 i j hpi hpj hij
  | deletejob pid =>
    obtain ⟨he,-⟩ | ⟨hp,k,hk,he⟩ := deletejob_spec pid t
    · simp only [exec,he] at hpi hpj hij
      exact hi.1 i j hpi hpj hij
    · have hne (m : Fin maxJobs) (hm : ((setSlot k clearjob t).slot m).pid ≠ 0) : m ≠ k := by
        rintro rfl
        simp [clearjob] at hm
      simp only [exec,he] at hpi hpj hij
      simp only [setSlot_ne (hne i hpi),setSlot_ne (hne j hpj)] at hpi hpj hij
      exact hi.1 i j hpi hpj hij

theorem freshId_of_identified (hn : Numbered t) {c : Call} (hi : Identified (exec t c)) :
    FreshId t c := by
  cases c with
  | deletejob pid => trivial
  | addjob pid state cmdline =>
    rintro hp ⟨f,hf⟩
    obtain ⟨k,hk,he⟩ := addjob_eq state cmdline hp hf
    cases hg : getjobjid t.nextjid t with
    | none => rfl
    | some m =>
      obtain ⟨-,hm⟩ := getjobjid_some hg
      have hpm : (t.slot m).pid ≠ 0 := fun h0 => by
        have hm0 := hn.free m h0
        have hnext := hn.next
        omega
      have hmk : m ≠ k := fun h => hpm (h ▸ hk)
      simp only [exec,he] at hi
      have hpk : (1 : Int) ≤ pid := hp
      refine absurd (hi.1 m k ?_ ?_ ?_) hmk
      · simpa [setSlot_ne hmk] using hpm
      · simp only [setSlot_self]
        omega
      · simpa [setSlot_ne hmk] using hm

theorem freshId_after_deletejob {pid : Int} (hp : 1 ≤ pid) {i : Fin maxJobs}
    (hi : (t.slot i).pid = pid) (c : Call) : FreshId (exec t (.deletejob pid)) c := by
  cases c with
  | deletejob _ => trivial
  | addjob _ _ _ =>
    intro _ _
    obtain ⟨-,h | h⟩ | ⟨-,k,-,he⟩ := deletejob_spec pid t
    · omega
    · exact absurd hi (h i)
    · simp only [exec,he]
      cases hg : getjobjid (maxjid (setSlot k clearjob t) + 1)
          { setSlot k clearjob t with nextjid := maxjid (setSlot k clearjob t) + 1 } with
      | none => rfl
      | some m =>
        have hm := (getjobjid_some hg).2
        have hle := (jid_le_maxjid m (setSlot k clearjob t)).1
        dsimp only at hm
        omega

theorem jids_identify_iff (cs : List Call) :
    (∀ ds, ds <+: cs → Identified (after ds)) ↔
      ∀ ds c, ds ++ [c] <+: cs → FreshId (after ds) c := by
  constructor
  · intro h ds c hp
    have hi := h _ hp
    rw [after_snoc] at hi
    exact freshId_of_identified (numbered_after ds) hi
  · intro h ds
    induction ds using List.reverseRecOn with
    | nil =>
      intro _
      exact identified_of_distinct numbered_initjobs fun i _ hi => absurd rfl hi
    | append_singleton ds c ih =>
      intro hp
      refine identified_of_distinct (numbered_after _) ?_
      rw [after_snoc]
      exact identified_exec (numbered_after ds) (ih ((List.prefix_append ds [c]).trans hp))
        (h ds c hp)

-- sixteen jobs, two of them gone, two more: job id 1 is given out again
def wrapCalls : List Call :=
  (List.range 16).map (fun n => .addjob (n + 101) .bg []) ++
    [.deletejob 102,.deletejob 103,.addjob 117 .bg [],.addjob 118 .bg []]

theorem wrap_repeats_jid :
    ((after wrapCalls).slot 0).pid = 101 ∧ ((after wrapCalls).slot 0).jid = 1 ∧
      ((after wrapCalls).slot 2).pid = 118 ∧ ((after wrapCalls).slot 2).jid = 1 ∧
        ¬ Identified (after wrapCalls) := by
  have h0 : (after wrapCalls).slot 0 = ⟨101,1,.bg,[]⟩ := by decide +kernel
  have h2 : (after wrapCalls).slot 2 = ⟨118,1,.bg,[]⟩ := by decide +kernel
  rw [h0,h2]
  refine ⟨rfl,rfl,rfl,rfl,fun hi => ?_⟩
  exact absurd (hi.1 0 2 (by simp [h0]) (by simp [h2]) (by simp [h0,h2])) (by decide)

end Tsh
