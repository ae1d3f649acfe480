import Mathlib

/-!
# Decoding in pieces

A decoder takes one code after the other off the front of a list.  What it finds there is a code
with what follows it, or the beginning of a code, or something that begins no code.  More elements
behind it change nothing but the second of these (`Decoder`).

So a list can be decoded in pieces, if what is left of one piece is put in front of the next
(`scan_append`), and an error in one piece is an error in the whole (`error_append`).
-/

namespace Decoding

/-- What a list begins with. -/
inductive Front (B C : Type*) where
  | code (c : C) (rest : List B)
  | incomplete
  | invalid (length : Nat)

/-- A decoder, and what more elements can change. -/
structure Decoder (B C : Type*) where
  front : List B → Front B C
  front_nil : front [] = .incomplete
  code_used : ∀ {bytes c rest}, front bytes = .code c rest →
    ∃ used, used ≠ [] ∧ bytes = used ++ rest ∧ ∀ more, front (used ++ more) = .code c more
  invalid_append : ∀ {bytes length} (more), front bytes = .invalid length →
    front (bytes ++ more) = .invalid length

/-- What has been decoded, what is left, and the length of the error there if it is one. -/
structure Scan (B C : Type*) where
  codes : List C := []
  rest : List B
  error : Option Nat := none

namespace Decoder

variable {B C : Type*} (d : Decoder B C)

lemma length_lt {bytes rest c} (h : d.front bytes = .code c rest) :
    rest.length < bytes.length := by
  obtain ⟨used, hne, rfl, -⟩ := d.code_used h
  have := List.length_pos_of_ne_nil hne
  simp only [List.length_append]
  omega

/-- All that can be decoded. -/
def scan (bytes : List B) : Scan B C :=
  match _h : d.front bytes with
  | .code c rest => { scan rest with codes := c :: (scan rest).codes }
  | .incomplete => { rest := bytes }
  | .invalid length => { rest := bytes, error := some length }
termination_by bytes.length
decreasing_by exact d.length_lt _h

variable {d} {bytes : List B}

lemma scan_code {c rest} (h : d.front bytes = .code c rest) :
    d.scan bytes = { d.scan rest with codes := c :: (d.scan rest).codes } := by
  rw [scan]
  split <;> simp_all

lemma scan_incomplete (h : d.front bytes = .incomplete) : d.scan bytes = { rest := bytes } := by
  rw [scan]
  split <;> simp_all

variable {length : Nat}

lemma scan_invalid (h : d.front bytes = .invalid length) :
    d.scan bytes = { rest := bytes, error := some length } := by
  rw [scan]
  split <;> simp_all

@[simp] lemma scan_nil : d.scan [] = { rest := [] } := scan_incomplete d.front_nil

/-- Code by code. -/
lemma code_induction {P : List B → Prop}
    (hcode : ∀ bytes c rest, d.front bytes = .code c rest → P rest → P bytes)
    (hincomplete : ∀ bytes, d.front bytes = .incomplete → P bytes)
    (hinvalid : ∀ bytes length, d.front bytes = .invalid length → P bytes) (bytes : List B) :
    P bytes := by
  induction hlength : bytes.length using Nat.strong_induction_on generalizing bytes with
  | _ n ih =>
    rcases hfront : d.front bytes with ⟨c, rest⟩ | _ | length
    · exact hcode bytes c rest hfront (ih _ (hlength ▸ d.length_lt hfront) rest rfl)
    · exact hincomplete bytes hfront
    · exact hinvalid bytes length hfront

/-- **What has been decoded** is a part of the list from which the decoder goes on with whatever
follows. -/
theorem exists_used (bytes : List B) : ∃ used, bytes = used ++ (d.scan bytes).rest ∧
    ∀ more, d.scan (used ++ more) =
      { d.scan more with codes := (d.scan bytes).codes ++ (d.scan more).codes } := by
  induction bytes using code_induction (d := d) with
  | hcode bytes c rest h ih =>
    obtain ⟨used, hrest, hused⟩ := ih
    obtain ⟨first, -, rfl, hfirst⟩ := d.code_used h
    refine ⟨first ++ used, ?_, fun more => ?_⟩
    · rw [scan_code h, List.append_assoc, ← hrest]
    · rw [List.append_assoc, scan_code (hfirst _), hused, scan_code h]
      rfl
  | hincomplete bytes h => exact ⟨[], by rw [scan_incomplete h]; rfl, by simp [scan_incomplete h]⟩
  | hinvalid bytes length h => exact ⟨[], by rw [scan_invalid h]; rfl, by simp [scan_invalid h]⟩

/-- **Decoding in pieces.** -/
theorem scan_append (bytes more : List B) : d.scan (bytes ++ more) =
      { d.scan ((d.scan bytes).rest ++ more) with
        codes := (d.scan bytes).codes ++ (d.scan ((d.scan bytes).rest ++ more)).codes } := by
  obtain ⟨used, hbytes, hused⟩ := d.exists_used bytes
  rw [← hused, ← List.append_assoc, ← hbytes]

/-- What is left begins with the error, or is the beginning of a code. -/
lemma front_rest (bytes : List B) : d.front (d.scan bytes).rest = match (d.scan bytes).error with
    | some length => .invalid length
    | none => .incomplete := by
  induction bytes using code_induction (d := d) with
  | hcode bytes c rest h ih => rw [scan_code h, ih]
  | hincomplete bytes h => rw [scan_incomplete h, h]
  | hinvalid bytes length h => rw [scan_invalid h, h]

lemma scan_rest {bytes} (h : (d.scan bytes).error = none) :
    d.scan (d.scan bytes).rest = { rest := (d.scan bytes).rest } := by
  have hfront := d.front_rest bytes
  rw [h] at hfront
  exact scan_incomplete hfront

lemma error_append {bytes} (h : (d.scan bytes).error = some length) (more : List B) :
    (d.scan (bytes ++ more)).error = some length := by
  have hfront := d.front_rest bytes
  rw [h] at hfront
  rw [scan_append, scan_invalid (d.invalid_append more hfront)]

lemma rest_ne_nil {bytes} (h : (d.scan bytes).error = some length) :
    (d.scan bytes).rest ≠ [] := by
  intro hnil
  have hfront := d.front_rest bytes
  rw [h, hnil, d.front_nil] at hfront
  simp at hfront

end Decoder

end Decoding
