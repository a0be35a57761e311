import IcsLabs.Proxy.Doit
import Mathlib.Data.List.TakeWhile

namespace Proxy

open Bytes

variable {broken : Bool} {k n : Nat} {line data buf bytes : List Byte} {src : Source} {sink : Sink}

theorem lineLoop_append (broken : Bool) (k : Nat) (line data : List Byte) :
    (lineLoop broken k line data).2.1 ++ (lineLoop broken k line data).2.2 = line ++ data := by
  induction k generalizing line data with
  | zero => rfl
  | succ k ih =>
    cases data with
    | nil => simp [lineLoop]
    | cons c data =>
      rw [lineLoop]
      split
      · simp
      · rw [ih,List.append_assoc,List.singleton_append]

theorem lineLoop_result (broken : Bool) (k : Nat) (line data : List Byte) :
    (lineLoop broken k line data).1 = (lineLoop broken k line data).2.1.length ∨
      (lineLoop broken k line data).1 = -1 ∧ (lineLoop broken k line data).2.2 = [] := by
  induction k generalizing line data with
  | zero => exact .inl rfl
  | succ k ih =>
    cases data with
    | nil =>
      cases broken with
      | true => exact .inr ⟨rfl,rfl⟩
      | false => exact .inl rfl
    | cons c data =>
      rw [lineLoop]
      split
      · exact .inl (by simp)
      · exact ih (line ++ [c]) data

theorem lineLoop_length (broken : Bool) (k : Nat) (line data : List Byte) :
    line.length ≤ (lineLoop broken k line data).2.1.length ∧
      (k ≠ 0 → data ≠ [] → line.length < (lineLoop broken k line data).2.1.length) := by
  induction k generalizing line data with
  | zero => exact ⟨le_refl _,fun h => absurd rfl h⟩
  | succ k ih =>
    cases data with
    | nil => exact ⟨le_refl _,fun _ h => absurd rfl h⟩
    | cons c data =>
      rw [lineLoop]
      split
      · simp
      · have hk := (ih (line ++ [c]) data).1
        simp only [List.length_append,List.length_singleton] at hk
        exact ⟨by omega,fun _ _ => by omega⟩

theorem lineLoop_le (broken : Bool) (k : Nat) (line data : List Byte) :
    (lineLoop broken k line data).2.1.length ≤ line.length + k := by
  induction k generalizing line data with
  | zero => exact le_refl _
  | succ k ih =>
    cases data with
    | nil => exact Nat.le_add_right _ _
    | cons c data =>
      rw [lineLoop]
      split
      · simp
      · have hk := ih (line ++ [c]) data
        rw [List.length_append,List.length_singleton] at hk
        omega

theorem lineLoop_newline (broken : Bool) (k : Nat) (line data : List Byte) (h : 10 ∉ line) :
    10 ∉ (lineLoop broken k line data).2.1.dropLast := by
  induction k generalizing line data with
  | zero => exact fun hm => h (List.dropLast_subset _ hm)
  | succ k ih =>
    cases data with
    | nil => exact fun hm => h (List.dropLast_subset _ hm)
    | cons c data =>
      rw [lineLoop]
      split
      · simpa using h
      · rename_i hc
        refine ih (line ++ [c]) data fun hm => ?_
        rcases List.mem_append.mp hm with hm | hm
        · exact h hm
        · exact hc (List.mem_singleton.mp hm).symm

-- what rio_readlineb has read
def lineOf (src : Source) : List Byte := (lineLoop src.broken (maxLine - 1) [] src.data).2.1

theorem lineOf_lt (src : Source) : (lineOf src).length < maxLine := by
  have h := lineLoop_le src.broken (maxLine - 1) [] src.data
  have hm : maxLine = 8192 := rfl
  rw [List.length_nil] at h
  rw [lineOf]
  omega

theorem rioReadlineb_append (buf : List Byte) (src : Source) :
    lineOf src ++ (rioReadlineb buf src).src.data = src.data :=
  lineLoop_append ..

theorem rioReadlineb_pos (h : (rioReadlineb buf src).result > 0) :
    (rioReadlineb buf src).result = (lineOf src).length ∧ 0 < (lineOf src).length ∧
      ∃ rest, (rioReadlineb buf src).buf = lineOf src ++ 0 :: rest := by
  have hr : (rioReadlineb buf src).result = (lineOf src).length := by
    obtain h' | ⟨h',-⟩ := lineLoop_result src.broken (maxLine - 1) [] src.data
    · exact h'
    · have hneg : (rioReadlineb buf src).result = -1 := h'
      omega
  refine ⟨hr,by omega,buf.drop ((lineOf src).length + 1),?_⟩
  have hpos : (lineLoop src.broken (maxLine - 1) [] src.data).1 > 0 := h
  simp only [rioReadlineb,if_pos hpos]
  rfl

theorem rioReadlineb_end (h : ¬ (rioReadlineb buf src).result > 0) :
    (rioReadlineb buf src).src.data = [] := by
  obtain h' | ⟨-,h'⟩ := lineLoop_result src.broken (maxLine - 1) [] src.data
  · have hr : (rioReadlineb buf src).result = (lineOf src).length := h'
    have hl : (lineOf src).length = 0 := by omega
    have hdata : src.data = [] := by
      by_contra hne
      have hlt := (lineLoop_length src.broken (maxLine - 1) [] src.data).2 (by decide) hne
      have hlen : (lineOf src).length = (lineLoop src.broken (maxLine - 1) [] src.data).2.1.length := rfl
      simp only [List.length_nil] at hlt
      omega
    have happ := rioReadlineb_append buf src
    rw [hdata,List.append_eq_nil_iff] at happ
    exact happ.2
  · exact h'

theorem cstr_line (line rest : List Byte) : cstr (line ++ 0 :: rest) = cstr line := by
  induction line with
  | nil => simp [cstr]
  | cons c line ih =>
    simp only [cstr,List.cons_append,List.takeWhile_cons] at ih ⊢
    rw [ih]

theorem cstr_of_nulFree (h : 0 ∉ line) : cstr line = line := by
  rw [cstr,List.takeWhile_eq_self_iff]
  intro b hb
  simp only [decide_eq_true_eq]
  rintro rfl
  exact h hb

theorem nul_notMem_cstr (line : List Byte) : 0 ∉ cstr line := by
  intro h
  have hb := List.mem_takeWhile_imp h
  simp at hb

theorem lineOf_blank (h : cstr (lineOf src) = crlf) : lineOf src = crlf := by
  have hnl := lineLoop_newline src.broken (maxLine - 1) [] src.data (by simp)
  obtain ⟨rest,hr⟩ := List.takeWhile_prefix (fun b : Byte => decide (b ≠ 0)) (l := lineOf src)
  have hr : crlf ++ rest = lineOf src := by rw [← h]; exact hr
  cases rest with
  | nil => rw [← hr,List.append_nil]
  | cons b rest =>
    refine absurd ?_ hnl
    have he : (lineLoop src.broken (maxLine - 1) [] src.data).2.1 = crlf ++ b :: rest := hr.symm
    rw [he,crlf,List.dropLast_append_cons]
    simp

theorem rioWriten_fits (bytes : List Byte) (sink : Sink) (h : bytes.length ≤ sink.room) :
    rioWriten bytes sink = ((bytes.length : Int),⟨sink.sent ++ bytes,sink.room - bytes.length⟩) :=
  if_pos h

theorem rioWriten_fails (bytes : List Byte) (sink : Sink) (h : sink.room < bytes.length) :
    rioWriten bytes sink = (-1,⟨sink.sent ++ bytes.take sink.room,0⟩) := if_neg (by omega)

theorem rioWriten_one (sink : Sink) (b : Byte) (h : 1 ≤ sink.room) :
    rioWriten [b] sink = (1,⟨sink.sent ++ [b],sink.room - 1⟩) := rioWriten_fits _ _ h

theorem rioWriten_none (b : Byte) (h : sink.room = 0) : rioWriten [b] sink = (-1,sink) := by
  obtain ⟨sent,room⟩ := sink
  subst h
  simp [rioWriten]

theorem rioReadnb_nil (buf : List Byte) (broken : Bool) :
    (rioReadnb buf ⟨[],broken⟩).result ≤ 0 ∧ (rioReadnb buf ⟨[],broken⟩).buf = buf ∧
      (rioReadnb buf ⟨[],broken⟩).src = ⟨[],broken⟩ := by
  cases broken <;> simp [rioReadnb]

-- the request body: whatever is missing is made up, the last byte excepted
theorem reqBodyLoop_spec (n : Nat) (buf : List Byte) (src : Source) (sink : Sink) :
    ∃ stale : List Byte, stale.length = n - 1 - src.data.length ∧
      (reqBodyLoop n buf src sink).2.sent =
        sink.sent ++ (src.data.take n ++ stale).take sink.room ∧
      ((reqBodyLoop n buf src sink).1 = true ↔ n ≤ src.data.length ∧ n ≤ sink.room) := by
  induction n generalizing buf src sink with
  | zero => exact ⟨[],by simp,by simp,by simp⟩
  | succ n ih =>
    obtain ⟨data,broken⟩ := src
    cases data with
    | nil =>
      obtain ⟨hr,hb,hs⟩ := rioReadnb_nil buf broken
      have hlt : (rioReadnb buf ⟨[],broken⟩).result < 1 := by omega
      cases n with
      | zero => exact ⟨[],by simp,by simp [reqBodyLoop_succ,hlt],by simp [reqBodyLoop_succ,hlt]⟩
      | succ n =>
        cases hroom : sink.room with
        | zero =>
          refine ⟨List.replicate n 0 ++ [0],by simp,?_,?_⟩
          all_goals simp [reqBodyLoop_succ,rioWriten_none _ hroom]
        | succ room =>
          have hw := rioWriten_one sink (buf.headD 0) (by omega)
          obtain ⟨stale,hl,hsent,hok⟩ := ih buf ⟨[],broken⟩
            ⟨sink.sent ++ [buf.headD 0],sink.room - 1⟩
          have he : reqBodyLoop (n + 2) buf ⟨[],broken⟩ sink = reqBodyLoop (n + 1) buf ⟨[],broken⟩
              ⟨sink.sent ++ [buf.headD 0],sink.room - 1⟩ := by
            rw [reqBodyLoop_succ (n + 1)]
            simp only [hb,hs,hw,Nat.succ_ne_zero,and_false,if_false,if_true]
          rw [he]
          refine ⟨buf.headD 0 :: stale,by simp at hl ⊢; omega,?_,?_⟩
          · rw [hsent]
            simp [hroom]
          · rw [hok]
            simp
    | cons b data =>
      cases hroom : sink.room with
      | zero =>
        refine ⟨List.replicate (n + 1 - 1 - (b :: data).length) 0,by simp,?_,?_⟩
        all_goals simp [reqBodyLoop_succ,rioReadnb,rioWriten_none _ hroom]
      | succ room =>
        have hw := rioWriten_one sink b (by omega)
        obtain ⟨stale,hl,hsent,hok⟩ := ih (b :: buf.drop 1) ⟨data,broken⟩
          ⟨sink.sent ++ [b],sink.room - 1⟩
        have he : reqBodyLoop (n + 1) buf ⟨b :: data,broken⟩ sink =
            reqBodyLoop n (b :: buf.drop 1) ⟨data,broken⟩ ⟨sink.sent ++ [b],sink.room - 1⟩ := by
          rw [reqBodyLoop_succ]
          simp [rioReadnb,hw]
        rw [he]
        refine ⟨stale,by simp at hl ⊢; omega,?_,?_⟩
        · rw [hsent]
          simp [hroom]
        · rw [hok]
          simp [hroom]

-- the response body: only a missing last byte is made up
theorem resBodyLoop_spec (n : Nat) (buf : List Byte) (src : Source) (sink : Sink) :
    ∃ stale : List Byte, stale.length = (if src.data.length + 1 = n then 1 else 0) ∧
      (resBodyLoop n buf src sink).2.sent =
        sink.sent ++ (src.data.take n ++ stale).take sink.room ∧
      ((resBodyLoop n buf src sink).1 = true ↔ n ≤ src.data.length + 1 ∧ n ≤ sink.room) := by
  induction n generalizing buf src sink with
  | zero => exact ⟨[],by simp,by simp,by simp⟩
  | succ n ih =>
    obtain ⟨data,broken⟩ := src
    cases data with
    | nil =>
      obtain ⟨hr,hb,hs⟩ := rioReadnb_nil buf broken
      cases n with
      | succ n => exact ⟨[],by simp,by simp [resBodyLoop_succ,hr],by simp [resBodyLoop_succ,hr]⟩
      | zero =>
        refine ⟨[buf.headD 0],by simp,?_⟩
        cases hroom : sink.room with
        | zero =>
          have hw := rioWriten_none (buf.headD 0) hroom
          simp only [resBodyLoop_succ,resBodyLoop_zero,hr,hb,hw,ne_eq,not_true,and_false,if_false]
          simp
        | succ room =>
          have hw := rioWriten_one sink (buf.headD 0) (by omega)
          simp only [resBodyLoop_succ,resBodyLoop_zero,hr,hb,hw,ne_eq,not_true,and_false,if_false,if_true]
          simp
    | cons b data =>
      cases hroom : sink.room with
      | zero =>
        refine ⟨List.replicate (if (b :: data).length + 1 = n + 1 then 1 else 0) 0,by simp,?_,?_⟩
        all_goals simp [resBodyLoop_succ,rioReadnb,rioWriten_none _ hroom]
      | succ room =>
        have hw := rioWriten_one sink b (by omega)
        obtain ⟨stale,hl,hsent,hok⟩ := ih (b :: buf.drop 1) ⟨data,broken⟩
          ⟨sink.sent ++ [b],sink.room - 1⟩
        have he : resBodyLoop (n + 1) buf ⟨b :: data,broken⟩ sink =
            resBodyLoop n (b :: buf.drop 1) ⟨data,broken⟩ ⟨sink.sent ++ [b],sink.room - 1⟩ := by
          rw [resBodyLoop_succ]
          simp [rioReadnb,hw]
        rw [he]
        refine ⟨stale,by simpa using hl,?_,?_⟩
        · rw [hsent]
          simp [hroom]
        · rw [hok]
          simp [hroom]

end Proxy
