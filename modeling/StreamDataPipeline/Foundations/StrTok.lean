/- Cutting a C string into tokens in place, as strtok_r does. -/

import StreamDataPipeline.Foundations.ByteString

/-!
`strtokR` works on memory: it looks for the next token from some index on and closes it by
writing NUL over the separator behind it. What successive calls find are the non-empty
pieces between the separators.
-/

set_option autoImplicit false
set_option relaxedAutoImplicit false

namespace StreamDataPipeline.Foundations.StrTok

open ByteString

variable (isSep : UInt8 → Bool)

/-- The non-empty pieces between separators. -/
def tokens (s : Bytes) : List Bytes := (s.splitOnP isSep).filter (· ≠ [])

/-- Where the next token begins, if there is one, the memory with the token closed, and
where the next call goes on. The outer `none` is a read behind the memory. -/
def strtokR (mem : Bytes) (start : Nat) : Option (Option Nat × Bytes × Nat) :=
  let tok := start + ((mem.drop start).takeWhile isSep).length
  match mem[tok]? with
  | none => none
  | some b =>
      if b = nul then some (none, mem, tok)
      else
        let stop := tok + ((mem.drop tok).takeWhile fun b => b ≠ nul && !isSep b).length
        match mem[stop]? with
        | none => none
        | some b =>
            if b = nul then some (some tok, mem, stop)
            else some (some tok, mem.set stop nul, stop + 1)

variable {isSep}

section Tokens

theorem tokens_nil : tokens isSep [] = [] := by
  rw [tokens, List.splitOnP_nil]
  rfl

theorem tokens_sep_cons {x : UInt8} (sep : isSep x = true) (s : Bytes) :
    tokens isSep (x :: s) = tokens isSep s := by
  have bare : ∀ b ∈ ([] : Bytes), isSep b = false := fun b mem => absurd mem List.not_mem_nil
  have cut : (x :: s).splitOnP isSep = [] :: s.splitOnP isSep :=
    List.splitOnP_append_cons_of_forall_mem bare x sep s
  rw [tokens, cut, List.filter_cons_of_neg (by simp), tokens]

theorem tokens_skip {skipped : Bytes} (seps : ∀ b ∈ skipped, isSep b = true) (s : Bytes) :
    tokens isSep (skipped ++ s) = tokens isSep s := by
  induction skipped with
  | nil => rfl
  | cons x xs ih =>
      obtain ⟨sep, rest⟩ := List.forall_mem_cons.mp seps
      rw [List.cons_append, tokens_sep_cons sep, ih rest]

variable {token : Bytes} (inside : ∀ b ∈ token, isSep b = false) (visible : token ≠ [])
include inside visible

theorem tokens_last : tokens isSep token = [token] := by
  rw [tokens, List.splitOnP_eq_singleton inside, List.filter_cons_of_pos (by simpa using visible)]
  rfl

theorem tokens_cut {x : UInt8} (sep : isSep x = true) (s : Bytes) :
    tokens isSep (token ++ x :: s) = token :: tokens isSep s := by
  rw [tokens, List.splitOnP_append_cons_of_forall_mem inside x sep s,
    List.filter_cons_of_pos (by simpa using visible), tokens]

end Tokens

theorem length_splitOnP (s : Bytes) : (s.splitOnP isSep).length = s.countP isSep + 1 := by
  induction s with
  | nil => rfl
  | cons x xs ih =>
      rw [List.splitOnP_cons_eq_if_modifyHead]
      split_ifs with sep
      · rw [List.length_cons, ih, List.countP_cons_of_pos sep]
      · rw [List.length_modifyHead, ih, List.countP_cons_of_neg sep]

theorem length_tokens_le (s : Bytes) : (tokens isSep s).length ≤ (s.splitOnP isSep).length :=
  List.length_filter_le _ _

theorem length_tokens_eq_iff (s : Bytes) :
    (tokens isSep s).length = (s.splitOnP isSep).length ↔
      ∀ piece ∈ s.splitOnP isSep, piece ≠ [] := by
  rw [tokens, List.length_filter_eq_length_iff]
  simp

private theorem takeWhile_stop {p : UInt8 → Bool} {front : Bytes} (all : ∀ b ∈ front, p b = true)
    {y : UInt8} (stop : p y = false) (rest : Bytes) : (front ++ y :: rest).takeWhile p = front := by
  rw [List.takeWhile_append_of_pos all, List.takeWhile_cons_of_neg (by simp [stop]),
    List.append_nil]

private theorem getElem?_behind (front : Bytes) (y : UInt8) (rest : Bytes) :
    (front ++ y :: rest)[front.length]? = some y := by simp

theorem strtokR_end (sepNul : isSep nul = false) (before : Bytes) {skipped : Bytes}
    (seps : ∀ b ∈ skipped, isSep b = true) (behind : Bytes) :
    strtokR isSep (before ++ skipped ++ nul :: behind) before.length =
      some (none, before ++ skipped ++ nul :: behind, (before ++ skipped).length) := by
  have skip : ((before ++ skipped ++ nul :: behind).drop before.length).takeWhile isSep =
      skipped := by
    rw [List.append_assoc, List.drop_left' rfl, takeWhile_stop seps sepNul]
  simp only [strtokR]
  rw [skip, ← List.length_append, getElem?_behind]
  rfl

section Cut

variable (sepNul : isSep nul = false) (before : Bytes) {skipped token : Bytes}
  (seps : ∀ b ∈ skipped, isSep b = true) (inside : ∀ b ∈ token, isSep b = false)
  (nulFree : nul ∉ token) (visible : token ≠ [])
include seps inside nulFree visible

private theorem strtokR_found {y : UInt8} (stop : y = nul ∨ isSep y = true) (rest : Bytes) :
    strtokR isSep (before ++ skipped ++ token ++ y :: rest) before.length =
      some (some (before ++ skipped).length,
        if y = nul then
          (before ++ skipped ++ token ++ y :: rest, (before ++ skipped ++ token).length)
        else (before ++ skipped ++ token ++ nul :: rest,
          (before ++ skipped ++ token).length + 1)) := by
  obtain ⟨b, bs, rfl⟩ := List.exists_cons_of_ne_nil visible
  have skip : ((before ++ skipped ++ b :: bs ++ y :: rest).drop before.length).takeWhile isSep =
      skipped := by
    rw [List.append_assoc, List.append_assoc, List.drop_left' rfl, List.cons_append,
      takeWhile_stop seps (inside b List.mem_cons_self)]
  have first :
      (before ++ skipped ++ b :: bs ++ y :: rest)[(before ++ skipped).length]? = some b := by
    rw [List.append_assoc _ (b :: bs), List.cons_append, getElem?_behind]
  have span :
      ((before ++ skipped ++ b :: bs ++ y :: rest).drop (before ++ skipped).length).takeWhile
        (fun b => b ≠ nul && !isSep b) = b :: bs := by
    rw [List.append_assoc _ (b :: bs), List.drop_left' rfl, takeWhile_stop]
    · intro c mem
      have ne : c ≠ nul := fun equal => nulFree (equal ▸ mem)
      simp [ne, inside c mem]
    · rcases stop with rfl | sep <;> simp [*]
  have bNul : b ≠ nul := fun equal => nulFree (equal ▸ List.mem_cons_self)
  simp only [strtokR]
  rw [skip, ← List.length_append, first]
  simp only [if_neg bNul]
  rw [span, ← List.length_append, getElem?_behind]
  by_cases last : y = nul
  · simp only [if_pos last]
  · simp only [if_neg last]
    simp

end Cut

private theorem exists_first_token (isSep : UInt8 → Bool) (s : Bytes) :
    (∀ b ∈ s, isSep b = true) ∨ ∃ skipped token r, s = skipped ++ token ++ r ∧
      (∀ b ∈ skipped, isSep b = true) ∧ (∀ b ∈ token, isSep b = false) ∧ token ≠ [] ∧
      ∀ b ∈ r.head?, isSep b = true := by
  have whole := (List.takeWhile_append_dropWhile (p := isSep) (l := s)).symm
  have seps : ∀ b ∈ s.takeWhile isSep, isSep b = true := fun b mem => List.mem_takeWhile_imp mem
  have start := List.head?_dropWhile_not isSep s
  generalize s.takeWhile isSep = skipped at whole seps
  generalize s.dropWhile isSep = u at whole start
  subst whole
  rcases u with _ | ⟨b, bs⟩
  · rw [List.append_nil]
    exact .inl seps
  · rw [List.head?_cons] at start
    refine .inr ⟨skipped, (b :: bs).takeWhile (!isSep ·), (b :: bs).dropWhile (!isSep ·), ?_, seps,
      ?_, ?_, ?_⟩
    · rw [List.append_assoc, List.takeWhile_append_dropWhile]
    · intro c mem
      simpa using List.mem_takeWhile_imp mem
    · rw [List.takeWhile_cons_of_pos (by simp [start])]
      exact List.cons_ne_nil _ _
    · intro c first
      have stopped := List.head?_dropWhile_not (!isSep ·) (b :: bs)
      rw [Option.mem_def.mp first] at stopped
      simpa using stopped

/-- A call at the start of the rest of a string, behind what earlier calls have cut: no token
is left, or the first one is cut off the rest. Later calls, which write into the rest only,
leave it readable. -/
theorem strtokR_cases (sepNul : isSep nul = false) (before : Bytes) {s : Bytes}
    (nulFree : nul ∉ s) (behind : Bytes) :
    (tokens isSep s = [] ∧ ∃ save, strtokR isSep (before ++ s ++ nul :: behind) before.length =
      some (none, before ++ s ++ nul :: behind, save)) ∨
    ∃ tok token used rest,
      strtokR isSep (before ++ s ++ nul :: behind) before.length =
        some (some tok, before ++ used ++ rest ++ nul :: behind, (before ++ used).length) ∧
      tokens isSep s = token :: tokens isSep rest ∧ token ≠ [] ∧
      nul ∉ rest ∧ used.length + rest.length = s.length ∧ rest.length < s.length ∧
      ∀ later : Bytes, later.length = rest.length →
        cstr ((before ++ used ++ later ++ nul :: behind).drop tok) = token := by
  rcases exists_first_token isSep s with
    seps | ⟨skipped, token, r, rfl, seps, inside, visible, stop⟩
  · have none : tokens isSep s = [] := by
      rw [← List.append_nil s, tokens_skip seps, tokens_nil]
    exact .inl ⟨none, _, strtokR_end sepNul before seps behind⟩
  right
  rw [List.mem_append, List.mem_append, not_or, not_or] at nulFree
  obtain ⟨⟨-, nulToken⟩, nulRest⟩ := nulFree
  have size := List.length_pos_iff.mpr visible
  have read : ∀ after : Bytes,
      cstr ((before ++ skipped ++ token ++ nul :: after).drop (before ++ skipped).length) =
        token := by
    intro after
    rw [List.append_assoc _ token, List.drop_left' rfl, cstr_append_nul, cstr_of_nul_free nulToken]
  rw [List.append_assoc skipped, tokens_skip seps]
  rcases r with _ | ⟨y, rest⟩
  · -- the token ends with the string and nothing is written
    refine ⟨(before ++ skipped).length, token, skipped ++ token, [], ?_, ?_, visible,
      List.not_mem_nil, ?_, ?_, ?_⟩
    · have found := strtokR_found before seps inside nulToken visible (.inl rfl) behind
      rw [if_pos rfl] at found
      simpa only [List.append_nil, List.append_assoc] using found
    · rw [List.append_nil, tokens_last inside visible, tokens_nil]
    · simp
    · simp only [List.length_append, List.length_nil]
      omega
    · intro later none
      rw [List.length_eq_zero_iff.mp none, List.append_nil]
      simpa only [List.append_assoc] using read behind
  · -- the separator behind the token is overwritten
    have sep := stop y rfl
    have yNul : y ≠ nul := fun equal => nulRest (equal ▸ List.mem_cons_self)
    refine ⟨(before ++ skipped).length, token, skipped ++ token ++ [nul], rest, ?_,
      tokens_cut inside visible sep rest, visible,
      fun mem => nulRest (List.mem_cons_of_mem y mem), ?_, ?_, ?_⟩
    · have found := strtokR_found before seps inside nulToken visible (.inr sep)
        (rest ++ nul :: behind)
      rw [if_neg yNul] at found
      simp only [List.append_assoc, List.cons_append, List.nil_append, List.length_append,
        List.length_singleton, Nat.add_assoc] at found ⊢
      exact found
    · simp only [List.length_append, List.length_cons, List.length_nil]
      omega
    · simp only [List.length_append, List.length_cons]
      omega
    · intro later _
      simpa only [List.append_assoc, List.cons_append, List.nil_append] using
        read (later ++ nul :: behind)

end StreamDataPipeline.Foundations.StrTok
