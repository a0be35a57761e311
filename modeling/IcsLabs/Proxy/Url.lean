import IcsLabs.Proxy.Faithful

namespace Proxy

open Bytes

def formatUri (scheme host : List Byte) (port path : Option (List Byte)) : List Byte :=
  scheme ++ (host ++ ((port.elim [] fun p => 58 :: p) ++ path.elim [] fun p => 47 :: p))

theorem startsWith_http {scheme rest : List Byte} (hs : scheme.map lower = ascii "http://")
    (hnul : 0 ∉ scheme ++ rest) : startsWith (ascii "http://") (scheme ++ rest) = true := by
  have hlen : scheme.length = (ascii "http://").length := by simpa using congrArg List.length hs
  rw [startsWith,cstr_of_nulFree hnul,decide_eq_true_eq,← hlen,List.take_left,hs]
  rfl

section Parts

variable {scheme host : List Byte} {port path : Option (List Byte)}

theorem not_endsHost {b : Byte} (h : endsHost b = false) : (!endsHost b) = true := by simp [h]

theorem ne_slash_of_not_endsHost {b : Byte} (h : endsHost b = false) : decide (b ≠ 47) = true := by
  rw [decide_eq_true_eq]
  rintro rfl
  exact absurd h (by decide)

theorem ne_slash_of_isDigit {b : Byte} (h : isDigit b = true) : decide (b ≠ 47) = true := by
  rw [decide_eq_true_eq]
  rintro rfl
  exact absurd h (by decide)

-- the three searches of parse_uri, each by its own delimiters
theorem parseUri_of_scheme (hs : scheme.map lower = ascii "http://") {rest : List Byte}
    (hnul : 0 ∉ scheme ++ (host ++ rest)) (hhost : ∀ b ∈ host, endsHost b = false) :
    parseUri (scheme ++ (host ++ rest)) = (rest.dropWhile fun b => !endsHost b).head?.map fun c =>
      ⟨host ++ rest.takeWhile fun b => !endsHost b,(rest.dropWhile (· ≠ 47)).drop 1,
        if c = 58 then ((rest.dropWhile fun b => !endsHost b).drop 1).takeWhile isDigit
        else ascii "80"⟩ := by
  have hlen : scheme.length = 7 := by simpa [ascii] using congrArg List.length hs
  have hbegin : (scheme ++ (host ++ rest)).drop 7 = host ++ rest := List.drop_left' hlen
  simp only [parseUri,startsWith_http hs hnul,Bool.not_true,Bool.false_eq_true,if_false,hbegin]
  rw [List.dropWhile_append_of_pos fun b hb => not_endsHost (hhost b hb),
    List.takeWhile_append_of_pos fun b hb => not_endsHost (hhost b hb),
    List.dropWhile_append_of_pos fun b hb => ne_slash_of_not_endsHost (hhost b hb)]
  cases rest.dropWhile fun b => !endsHost b <;> rfl

theorem parseUri_formatUri (hs : scheme.map lower = ascii "http://")
    (hnul : 0 ∉ formatUri scheme host port path) (hhost : ∀ b ∈ host, endsHost b = false)
    (hport : ∀ p, port = some p → ∀ b ∈ p, isDigit b = true) :
    parseUri (formatUri scheme host port path) =
      if port.isSome ∨ path.isSome then some ⟨host,path.getD [],port.getD (ascii "80")⟩ else none := by
  rw [formatUri,parseUri_of_scheme hs hnul hhost]
  cases port with
  | none =>
    cases path with
    | none => rfl
    | some p => simp [endsHost]
  | some p =>
    have hdig := hport p rfl
    have hstop (t : List Byte) : (58 :: t).dropWhile (fun b => !endsHost b) = 58 :: t :=
      List.dropWhile_cons_of_neg (by decide)
    have hnone (t : List Byte) : (58 :: t).takeWhile (fun b => !endsHost b) = [] :=
      List.takeWhile_cons_of_neg (by decide)
    have hslash (t : List Byte) : (58 :: p ++ t).dropWhile (fun b => decide (b ≠ 47)) =
        t.dropWhile (fun b => decide (b ≠ 47)) := by
      rw [List.cons_append,List.dropWhile_cons_of_pos (by decide),
        List.dropWhile_append_of_pos fun b hb => ne_slash_of_isDigit (hdig b hb)]
    have htail : (path.elim [] fun p => 47 :: p).takeWhile isDigit = [] := by
      cases path with
      | none => rfl
      | some q => exact List.takeWhile_cons_of_neg (by decide)
    have hpath : ((path.elim [] fun p => 47 :: p).dropWhile fun b => decide (b ≠ 47)).drop 1 =
        path.getD [] := by
      cases path <;> simp
    simp only [Option.elim_some,hslash,hpath]
    rw [List.cons_append,hstop,hnone]
    simp only [List.head?_cons,Option.map_some,if_true,List.drop_succ_cons,List.drop_zero,
      List.takeWhile_append_of_pos hdig,htail,List.append_nil,Option.isSome_some,true_or,if_true,
      Option.getD_some]

end Parts

-- http:// in any letter case, a host, and perhaps a port and a path
structure Url where
  scheme : List Byte
  host : List Byte
  port : Option (List Byte)
  path : Option (List Byte)
  isHttp : scheme.map lower = ascii "http://"
  host_ne_nil : host ≠ []
  host_byte : ∀ b ∈ host, endsHost b = false ∧ b ≠ 0
  port_digits : ∀ p, port = some p → p ≠ [] ∧ ∀ b ∈ p, isDigit b = true
  path_word : ∀ p, path = some p → ∀ b ∈ p, isSpace b = false ∧ b ≠ 0

def Url.format (u : Url) : List Byte := formatUri u.scheme u.host u.port u.path

def Url.parts (u : Url) : Uri := ⟨u.host,u.path.getD [],u.port.getD (ascii "80")⟩

theorem Url.nul_notMem_format (u : Url) : 0 ∉ u.format := by
  have hscheme : 0 ∉ u.scheme := fun h => by
    have hm : lower 0 ∈ u.scheme.map lower := List.mem_map_of_mem h
    rw [u.isHttp] at hm
    exact absurd hm (by decide)
  have hport : 0 ∉ u.port.elim [] fun p => 58 :: p := by
    cases hp : u.port with
    | none => exact List.not_mem_nil
    | some p =>
      refine List.not_mem_cons_of_ne_of_not_mem (by decide) fun h => ?_
      exact absurd ((u.port_digits p hp).2 0 h) (by decide)
  have hpath : 0 ∉ u.path.elim [] fun p => 47 :: p := by
    cases hp : u.path with
    | none => exact List.not_mem_nil
    | some p => exact List.not_mem_cons_of_ne_of_not_mem (by decide) fun h => (u.path_word p hp 0 h).2 rfl
  rw [Url.format,formatUri]
  simp only [List.mem_append,not_or]
  exact ⟨hscheme,fun h => (u.host_byte 0 h).2 rfl,hport,hpath⟩

theorem parseUri_format (u : Url) : parseUri u.format = some u.parts ↔ u.port.isSome ∨ u.path.isSome := by
  have h := parseUri_formatUri u.isHttp u.nul_notMem_format (fun b hb => (u.host_byte b hb).1)
    fun p hp => (u.port_digits p hp).2
  rw [Url.format,h,Url.parts]
  split <;> simp_all

theorem parseUri_host_only : parseUri (ascii "http://h") = none ∧
    ¬∀ u : Url, parseUri u.format = some u.parts := by
  have hnone : parseUri (ascii "http://h") = none := by decide
  refine ⟨hnone,fun h => ?_⟩
  have hsome := h ⟨ascii "http://",ascii "h",none,none,by decide,by decide,by decide,by simp,by simp⟩
  exact absurd (hnone.symm.trans hsome) (by simp)

end Proxy
