import Mathlib.Data.List.Basic
import Mathlib.Data.List.Induction
import Mathlib.Tactic.Common

/-!
# Texts read line by line

A reader of lines is fed its text in chunks and hands on each line when it is complete.  How
the text is cut into chunks makes no difference: what is read is the lines of the whole text.
-/

namespace CalcKernel.Lib

variable {σ ε : Type}

/-- The state behind the lines read, the line that is not complete, and the first error. -/
structure LineFeed (σ ε : Type) where
  state : σ
  pending : List Char
  failure : Option ε

theorem notMem_of_mem_splitOn {c : Char} {text part : List Char} (h : part ∈ text.splitOn c) :
    c ∉ part := by
  induction text generalizing part with
  | nil =>
      rw [List.splitOn_nil, List.mem_singleton] at h
      exact h ▸ List.not_mem_nil
  | cons d text ih =>
      rw [List.splitOn_cons_eq_if_modifyHead] at h
      split at h
      · rcases List.mem_cons.mp h with rfl | h
        · exact List.not_mem_nil
        · exact ih h
      · rename_i hne
        obtain ⟨first, rest, hparts⟩ := List.exists_cons_of_ne_nil (List.splitOn_ne_nil c text)
        rw [hparts, List.modifyHead_cons] at h
        rcases List.mem_cons.mp h with rfl | h
        · have hfirst : c ∉ first := ih (hparts ▸ List.mem_cons_self)
          simp only [beq_iff_eq] at hne
          exact fun hmem ↦ (List.mem_cons.mp hmem).elim (fun heq ↦ hne heq.symm) hfirst
        · exact ih (hparts ▸ List.mem_cons_of_mem _ h)

namespace LineFeed

variable (line : σ → List Char → Except ε σ)

/-- The last line has no end yet. -/
def lines (state : σ) : List (List Char) → LineFeed σ ε
  | [] => ⟨state, [], none⟩
  | [last] => ⟨state, last, none⟩
  | text :: rest =>
      match line state text with
      | .error e => ⟨state, [], some e⟩
      | .ok state => lines state rest

def push (feed : LineFeed σ ε) (text : List Char) : LineFeed σ ε :=
  match feed.failure with
  | some _ => feed
  | none => lines line feed.state ((feed.pending ++ text).splitOn '\n')

/-- What is pending at the end is the last line. -/
def close (feed : LineFeed σ ε) : Except ε σ :=
  match feed.failure with
  | some e => .error e
  | none => if feed.pending = [] then .ok feed.state else line feed.state feed.pending

def start (state : σ) : LineFeed σ ε := ⟨state, [], none⟩

variable {line}

theorem push_lines (state : σ) {texts : List (List Char)} (hne : texts ≠ [])
    (htexts : ∀ text ∈ texts, '\n' ∉ text) (more : List Char) :
    push line (lines line state texts) more =
      lines line state ((['\n'].intercalate texts ++ more).splitOn '\n') := by
  induction texts generalizing state with
  | nil => exact absurd rfl hne
  | cons text rest ih =>
      cases rest with
      | nil => simp [lines, push]
      | cons next rest =>
          have hsplit : (['\n'].intercalate (text :: next :: rest) ++ more).splitOn '\n' =
              text :: (['\n'].intercalate (next :: rest) ++ more).splitOn '\n' := by
            rw [List.intercalate_cons_cons, List.append_assoc, List.append_assoc]
            exact List.splitOn_append_cons_self_of_not_mem (htexts text List.mem_cons_self) _
          have hmore := List.splitOn_ne_nil '\n' (['\n'].intercalate (next :: rest) ++ more)
          obtain ⟨first, others, hothers⟩ := List.exists_cons_of_ne_nil hmore
          rw [hsplit, hothers]
          simp only [lines]
          cases hline : line state text with
          | error e => rfl
          | ok state' =>
              have hrest := ih state' (List.cons_ne_nil _ _)
                fun text htext ↦ htexts text (List.mem_cons_of_mem _ htext)
              rw [hothers] at hrest
              exact hrest

/-- Only the text counts, not its chunks. -/
theorem foldl_push (state : σ) (chunks : List (List Char)) :
    chunks.foldl (push line) (start state) = lines line state (chunks.flatten.splitOn '\n') := by
  induction chunks using List.reverseRecOn with
  | nil => rfl
  | append_singleton chunks chunk ih =>
      rw [List.foldl_append, List.foldl_cons, List.foldl_nil, ih,
        push_lines state (List.splitOn_ne_nil _ _) (fun text htext ↦ notMem_of_mem_splitOn htext),
        List.intercalate_splitOn, List.flatten_append]
      simp

/-- A text of whole lines is read line by line. -/
theorem close_whole (state : σ) (texts : List (List Char)) :
    close line (lines line state (texts ++ [[]])) = texts.foldlM line state := by
  induction texts generalizing state with
  | nil => rfl
  | cons text rest ih =>
      obtain ⟨first, others, hothers⟩ :=
        List.exists_cons_of_ne_nil (List.append_ne_nil_of_right_ne_nil rest (List.cons_ne_nil [] []))
      rw [List.cons_append, hothers, List.foldlM_cons]
      simp only [lines]
      cases hline : line state text with
      | error e => rfl
      | ok state' =>
          rw [← hothers]
          exact ih state'

/-- What is read in the end was read from complete lines. -/
theorem exists_lines {state state' : σ} {texts : List (List Char)}
    (h : close line (lines line state texts) = .ok state') :
    ∃ read : List (List Char), (∀ text ∈ read, text ∈ texts) ∧ read.foldlM line state = .ok state' := by
  induction texts generalizing state with
  | nil => exact ⟨[], fun _ h ↦ h, h⟩
  | cons text rest ih =>
      cases rest with
      | nil =>
          by_cases hempty : text = []
          · subst hempty
            exact ⟨[], fun _ hmem ↦ absurd hmem List.not_mem_nil, h⟩
          · refine ⟨[text], fun _ hmem ↦ hmem, ?_⟩
            have hlast : line state text = .ok state' := (if_neg hempty).symm.trans h
            rw [List.foldlM_cons, hlast]
            rfl
      | cons next rest =>
          simp only [lines] at h
          cases hline : line state text with
          | error e =>
              rw [hline] at h
              cases h
          | ok state₁ =>
              rw [hline] at h
              obtain ⟨read, hread, hrun⟩ := ih h
              refine ⟨text :: read, fun t ht ↦ ?_, ?_⟩
              · rcases List.mem_cons.mp ht with rfl | ht
                · exact List.mem_cons_self
                · exact List.mem_cons_of_mem _ (hread t ht)
              · rw [List.foldlM_cons, hline]
                exact hrun

/-- Lines behind lines that are read. -/
theorem run_append {state state' : σ} {first : List (List Char)}
    (h : first.foldlM line state = .ok state') (rest : List (List Char)) :
    (first ++ rest).foldlM line state = rest.foldlM line state' := by
  rw [List.foldlM_append, h]
  rfl

theorem run_single {state state' : σ} {text : List Char} (h : line state text = .ok state') :
    [text].foldlM line state = .ok state' := by
  rw [List.foldlM_cons, h]
  rfl

theorem splitOn_flatMap (texts : List (List Char)) (htexts : ∀ text ∈ texts, '\n' ∉ text) :
    (texts.flatMap (· ++ ['\n'])).splitOn '\n' = texts ++ [[]] := by
  induction texts with
  | nil => rfl
  | cons text rest ih =>
      rw [List.flatMap_cons, List.append_assoc, List.cons_append, List.nil_append,
        List.splitOn_append_cons_self_of_not_mem (htexts text List.mem_cons_self),
        ih fun t ht ↦ htexts t (List.mem_cons_of_mem _ ht)]
      rfl

/-- The text of whole lines, in any chunks, is the lines one after the other. -/
theorem close_push (state : σ) {chunks texts : List (List Char)}
    (htexts : ∀ text ∈ texts, '\n' ∉ text) (hchunks : chunks.flatten = texts.flatMap (· ++ ['\n'])) :
    close line (chunks.foldl (push line) (start state)) = texts.foldlM line state := by
  rw [foldl_push, hchunks, splitOn_flatMap texts htexts, close_whole]

/-- What holds at the start and is kept by every line holds of what is read. -/
theorem invariant {P : σ → Prop} {state state' : σ} {chunks : List (List Char)}
    (hstart : P state)
    (hline : ∀ {s text s'}, P s → '\n' ∉ text → line s text = .ok s' → P s')
    (h : close line (chunks.foldl (push line) (start state)) = .ok state') : P state' := by
  rw [foldl_push] at h
  obtain ⟨read, hread, hrun⟩ := exists_lines h
  have hnewline : ∀ text ∈ read, '\n' ∉ text := fun text htext ↦
    notMem_of_mem_splitOn (hread text htext)
  clear h hread
  induction read generalizing state with
  | nil =>
      cases hrun
      exact hstart
  | cons text read ih =>
      rw [List.foldlM_cons] at hrun
      cases htext : line state text with
      | error e =>
          rw [htext] at hrun
          cases hrun
      | ok state₁ =>
          rw [htext] at hrun
          exact ih (hline hstart (hnewline text List.mem_cons_self) htext) hrun
            fun t ht ↦ hnewline t (List.mem_cons_of_mem _ ht)

end LineFeed

end CalcKernel.Lib
