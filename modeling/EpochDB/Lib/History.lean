import Mathlib

/-!
The history of one key: entries in the order of their numbers, at most one for each number, read as
of any number.
-/

namespace History

open List

variable {ε : Type} (num : ε → Nat)

def put (h : List ε) (e : ε) : List ε :=
  match h.getLast? with
  | some last => if num last = num e then h.dropLast ++ [e] else h ++ [e]
  | none => h ++ [e]

def record (es : List ε) : List ε := es.foldl (put num) []

def latest (h : List ε) (n : Nat) : Option ε :=
  let i := h.findIdx (fun e => n < num e)
  if i = 0 then none else h[i - 1]?

@[simp]
theorem put_nil (e : ε) : put num [] e = [e] := rfl

theorem put_append_singleton (h : List ε) (last e : ε)
    : put num (h ++ [last]) e = if num last = num e then h ++ [e] else h ++ [last] ++ [e] := by
  simp [put]

theorem record_append (es : List ε) (e : ε) : record num (es ++ [e]) = put num (record num es) e := by
  simp [record]

variable {h es : List ε} {e : ε}

theorem mem_of_mem_put {e e' : ε} (hmem : e' ∈ put num h e) : e' ∈ h ∨ e' = e := by
  rcases eq_nil_or_concat h with rfl | ⟨h, last, rfl⟩
  . right
    simpa using hmem
  . rw [concat_eq_append] at *
    rw [put_append_singleton] at hmem
    split at hmem
    . rw [mem_append, mem_singleton] at hmem
      exact hmem.imp (fun h => mem_append_left _ h) id
    . rw [mem_append, mem_singleton] at hmem
      exact hmem

theorem mem_of_mem_record (hmem : e ∈ record num es) : e ∈ es := by
  induction es using List.reverseRecOn with
  | nil => simp [record] at hmem
  | append_singleton es e' ih =>
    rw [record_append] at hmem
    rw [mem_append, mem_singleton]
    exact (mem_of_mem_put num hmem).imp ih id

@[simp]
theorem latest_nil (n : Nat) : latest num [] n = none := rfl

theorem latest_of_forall_le {n : Nat} (hle : ∀ e ∈ h, num e ≤ n) : latest num h n = h.getLast? := by
  have hidx : h.findIdx (fun e => n < num e) = h.length := by
    rw [findIdx_eq_length]
    intro e he
    simpa using hle e he
  unfold latest
  dsimp only
  rw [hidx, getLast?_eq_getElem?]
  split
  . next hlen => simp [length_eq_zero_iff.mp hlen]
  . rfl

theorem latest_append_of_lt (h : List ε) {n : Nat} (hlt : n < num e) : latest num (h ++ [e]) n = latest num h n := by
  have hidx : (h ++ [e]).findIdx (fun e => n < num e) = h.findIdx (fun e => n < num e) := by
    rw [findIdx_append]
    split
    . rfl
    . next hge =>
      have := @List.findIdx_le_length _ (fun e => decide (n < num e)) h
      simp [findIdx_cons, hlt]
      omega
  have hle := @List.findIdx_le_length _ (fun e => decide (n < num e)) h
  unfold latest
  dsimp only
  rw [hidx]
  split
  . rfl
  . next hpos => rw [getElem?_append_left (by omega)]

theorem latest_put (hle : ∀ e' ∈ h, num e' ≤ num e) (n : Nat)
    : latest num (put num h e) n = if num e ≤ n then some e else latest num h n := by
  by_cases hn : num e ≤ n
  . have hall : ∀ e' ∈ put num h e, num e' ≤ n := by
      intro e' he'
      rcases mem_of_mem_put num he' with he' | rfl
      . exact Nat.le_trans (hle e' he') hn
      . exact hn
    rw [latest_of_forall_le num hall, if_pos hn]
    unfold put
    split
    . split <;> simp
    . simp
  . rw [if_neg hn]
    rw [Nat.not_le] at hn
    rcases eq_nil_or_concat h with rfl | ⟨h, last, rfl⟩
    . exact latest_append_of_lt num [] hn
    . rw [concat_eq_append, put_append_singleton]
      split
      . next heq =>
        rw [latest_append_of_lt num h hn]
        rw [latest_append_of_lt num h (by rwa [heq])]
      . exact latest_append_of_lt num _ hn

theorem latest_record (hs : es.Pairwise (fun e e' => num e ≤ num e')) (n : Nat)
    : latest num (record num es) n = (es.filter (fun e => num e ≤ n)).getLast? := by
  induction es using List.reverseRecOn with
  | nil => rfl
  | append_singleton es e ih =>
    rw [pairwise_append] at hs
    rcases hs with ⟨hs, -, hle⟩
    have hle' : ∀ e' ∈ record num es, num e' ≤ num e :=
      fun e' he' => hle e' (mem_of_mem_record num he') e (by simp)
    rw [record_append, latest_put num hle', ih hs, filter_append]
    by_cases hn : num e ≤ n
    . simp [hn]
    . simp [hn]

theorem put_pairwise_lt (hs : h.Pairwise (fun e e' => num e < num e'))
    (hle : ∀ e' ∈ h, num e' ≤ num e) : (put num h e).Pairwise (fun e e' => num e < num e') := by
  rcases eq_nil_or_concat h with rfl | ⟨front, last, rfl⟩
  . simp
  . rw [concat_eq_append] at *
    have hs' := pairwise_append.mp hs
    rw [put_append_singleton]
    split
    . next heq =>
      rw [pairwise_append]
      refine ⟨hs'.1, by simp, ?_⟩
      intro e' he' e'' he''
      rw [mem_singleton] at he''
      rw [he'', ← heq]
      exact hs'.2.2 e' he' last (by simp)
    . next hne =>
      have hlt : num last < num e := Nat.lt_of_le_of_ne (hle last (by simp)) hne
      rw [pairwise_append]
      refine ⟨hs, by simp, ?_⟩
      intro e' he' e'' he''
      rw [mem_singleton] at he''
      rw [he'']
      rw [mem_append, mem_singleton] at he'
      cases he' with
      | inl he' => exact Nat.lt_trans (hs'.2.2 e' he' last (by simp)) hlt
      | inr he' => rwa [he']

theorem mem_put_iff (hs : h.Pairwise (fun e e' => num e < num e'))
    (hle : ∀ e' ∈ h, num e' ≤ num e) {e' : ε} : e' ∈ put num h e ↔ e' = e ∨ e' ∈ h ∧ num e' ≠ num e := by
  rcases eq_nil_or_concat h with rfl | ⟨front, last, rfl⟩
  . simp
  . rw [concat_eq_append] at *
    have hs' := pairwise_append.mp hs
    have hfront : ∀ e' ∈ front, num e' ≠ num e := by
      intro e' he'
      have := hs'.2.2 e' he' last (by simp)
      have := hle last (by simp)
      omega
    rw [put_append_singleton]
    simp only [mem_append, mem_singleton]
    split
    . next heq =>
      simp only [mem_append, mem_singleton]
      constructor
      . rintro (h | h)
        . exact .inr ⟨.inl h, hfront e' h⟩
        . exact .inl h
      . rintro (h | ⟨h | rfl, hne⟩)
        . exact .inr h
        . exact .inl h
        . exact absurd heq hne
    . next hne =>
      simp only [mem_append, mem_singleton]
      constructor
      . rintro ((h | rfl) | h)
        . exact .inr ⟨.inl h, hfront e' h⟩
        . exact .inr ⟨.inr rfl, hne⟩
        . exact .inl h
      . rintro (h | ⟨h, -⟩)
        . exact .inr h
        . exact .inl h

theorem record_pairwise_lt (hs : es.Pairwise (fun e e' => num e ≤ num e'))
    : (record num es).Pairwise (fun e e' => num e < num e') := by
  induction es using List.reverseRecOn with
  | nil => exact List.Pairwise.nil
  | append_singleton es e ih =>
    rw [pairwise_append] at hs
    rw [record_append]
    apply put_pairwise_lt num (ih hs.1)
    intro e' he'
    exact hs.2.2 e' (mem_of_mem_record num he') e (by simp)

theorem mem_record_iff (hs : es.Pairwise (fun e e' => num e ≤ num e'))
    : e ∈ record num es ↔ (es.filter (fun e' => num e' = num e)).getLast? = some e := by
  induction es using List.reverseRecOn with
  | nil => simp [record]
  | append_singleton es a ih =>
    rw [pairwise_append] at hs
    have hle : ∀ e' ∈ record num es, num e' ≤ num a :=
      fun e' he' => hs.2.2 e' (mem_of_mem_record num he') a (by simp)
    rw [record_append, mem_put_iff num (record_pairwise_lt num hs.1) hle, ih hs.1, filter_append]
    by_cases ha : num a = num e
    . simp only [ha, ne_eq, not_true_eq_false, and_false, or_false, filter_cons, decide_true, if_true]
      simp [eq_comm]
    . have hne : e ≠ a := by
        rintro rfl
        exact ha rfl
      simp [ha, hne, Ne.symm ha]

end History

