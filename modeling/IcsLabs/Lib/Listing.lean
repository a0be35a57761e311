import IcsLabs.Lib.Y86

namespace Y86
open Bytes

def Instr.stores : Instr → Bool
  | .rmmovq .. | .call _ | .pushq _ => true
  | _ => false

-- a program as its instructions by address, apart from the memory
abbrev Listing := Nat → Option Instr

namespace Listing

-- x is in an instruction of the program
def Owns (prog : Listing) (x : Nat) : Prop := ∃ a i, prog a = some i ∧ a ≤ x ∧ x < a + i.length

def Loaded (prog : Listing) (m : Nat → Byte) : Prop :=
  ∀ a i, prog a = some i → Holds m a (encode i)

-- the data of an instruction are among size bytes, and it stores nothing into the program
structure Safe (prog : Listing) (size : Nat) (i : Instr) (s : State) : Prop where
  inside : ∀ a, i.dataAddr s = some a → a.toNat + 8 ≤ size
  apart : ∀ a, i.dataAddr s = some a → i.stores = true →
    ∀ x, prog.Owns x → x < a.toNat ∨ a.toNat + 8 ≤ x

-- n instructions of the listing where they are ok, none of them halt
inductive Runs (prog : Listing) (ok : Instr → State → Prop) :
    Nat → State × Flags → State × Flags → Prop
  | refl (c : State × Flags) : Runs prog ok 0 c c
  | step {n : Nat} {s : State} {f : Flags} {d : State × Flags} {i : Instr}
      (hi : prog s.pc.toNat = some i) (hh : i ≠ .halt) (hs : ok i s)
      (hr : Runs prog ok n (i.exec f s,i.flags f s) d) : Runs prog ok (n + 1) (s,f) d

variable {prog : Listing} {size : Nat} {i : Instr} {s : State} {f : Flags} {m : Nat → Byte}

theorem exec_mem (f : Flags) (i : Instr) (s : State) : (i.exec f s).mem = s.mem ∨
    ∃ a v, i.stores = true ∧ i.dataAddr s = some a ∧ (i.exec f s).mem = store s.mem a v := by
  cases i with
  | rmmovq rA rB d => exact .inr ⟨_,_,rfl,rfl,rfl⟩
  | call dest => exact .inr ⟨_,_,rfl,rfl,rfl⟩
  | pushq rA => exact .inr ⟨_,_,rfl,rfl,rfl⟩
  | ret => exact .inl (by simp only [Instr.exec])
  | _ => exact .inl rfl

theorem Loaded.exec (h : Loaded prog s.mem) (hs : Safe prog size i s) (f : Flags) :
    Loaded prog (i.exec f s).mem := by
  obtain hm | ⟨a,v,hst,ha,hm⟩ := exec_mem f i s
  · rw [hm]
    exact h
  · rw [hm]
    intro b j hj k hk
    have hlen : k < j.length := by rwa [← Instr.length_encode]
    have hx := hs.apart a ha hst (b + k) ⟨b,j,hj,by omega,by omega⟩
    rw [store,writeLE_outside hx]
    exact h b j hj k hk

theorem Loaded.decode (h : Loaded prog m) {a : Nat} (hi : prog a = some i) :
    Y86.decode m a = some i := decode_encode (h a i hi)

end Listing

end Y86
