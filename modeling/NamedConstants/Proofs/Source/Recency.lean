import Mathlib.Data.List.Dedup
import Mathlib.Data.List.DropRight
import Mathlib.Data.List.Nodup
import NamedConstants.Proofs.Source.Caching

/-!
Which texts a cache keeps. A request puts its text at the end, and what is pushed out at the
front is the text that nobody has asked for the longest. So after any requests a cache keeps
the texts that were requested last, each of them once, in the order of their last requests.
-/
namespace NamedConstants

section Lists

variable {κ μ : Type}

/-- Of each member the last occurrence stays. -/
theorem dedup_append_singleton [DecidableEq κ] (l : List κ) (k : κ) :
    (l ++ [k]).dedup = l.dedup.filter (· ≠ k) ++ [k] := by
  induction l with
  | nil => simp
  | cons first rest ih =>
    by_cases hrest : first ∈ rest
    · rw [List.cons_append, List.dedup_cons_of_mem (List.mem_append_left _ hrest), ih,
        List.dedup_cons_of_mem hrest]
    · rw [List.dedup_cons_of_notMem hrest]
      by_cases hk : first = k
      · subst hk
        have hmem : first ∈ rest ++ [first] := by simp
        rw [List.cons_append, List.dedup_cons_of_mem hmem, ih]
        simp
      · have hnot : first ∉ rest ++ [k] := by simp [hrest, hk]
        rw [List.cons_append, List.dedup_cons_of_notMem hnot, ih]
        simp [hk]

theorem rtake_of_length_le {l : List κ} {n : Nat} (h : l.length ≤ n) : l.rtake n = l := by
  rw [List.rtake, Nat.sub_eq_zero_of_le h, List.drop_zero]

theorem map_rtake (f : κ → μ) (l : List κ) (n : Nat) : (l.rtake n).map f = (l.map f).rtake n := by
  rw [List.rtake, List.rtake, List.map_drop, List.length_map]

/-- What comes before a part that is long enough does not matter. -/
theorem rtake_append_of_le_length (before : List κ) {l : List κ} {n : Nat} (h : n ≤ l.length) :
    (before ++ l).rtake n = l.rtake n := by
  have hlength : before.length + l.length - n = before.length + (l.length - n) := by omega
  rw [List.rtake, List.rtake, List.length_append, hlength, List.drop_length_add_append]

/-- A list without repetitions can be cut before one of its members is moved to the end. -/
theorem rtake_filter_append_singleton [DecidableEq κ] {l : List κ} (hl : l.Nodup) (k : κ)
    (n : Nat) :
    ((l.rtake n).filter (· ≠ k) ++ [k]).rtake n = (l.filter (· ≠ k) ++ [k]).rtake n := by
  by_cases hshort : l.length ≤ n
  · rw [rtake_of_length_le hshort]
  cases n with
  | zero => simp
  | succ n =>
    let kept := l.rtake (n + 1)
    have hsplit : l = l.rdrop (n + 1) ++ kept := (List.take_append_drop _ l).symm
    have hnodup : kept.Nodup := hl.sublist (List.drop_sublist _ _)
    have hlength : kept.length = n + 1 := by
      simp only [kept, List.rtake, List.length_drop]
      omega
    have hfilter : n ≤ (kept.filter (· ≠ k)).length := by
      have herase : kept.filter (· ≠ k) = kept.erase k := by
        rw [hnodup.erase_eq_filter]
        exact List.filter_congr fun x _ => by simp [bne, Bool.beq_eq_decide_eq]
      have hle := List.le_length_erase (a := k) (l := kept)
      rw [herase]
      omega
    rw [List.rtake_concat_succ, List.rtake_concat_succ]
    congr 1
    conv_rhs => rw [hsplit, List.filter_append, rtake_append_of_le_length _ hfilter]

end Lists

namespace RecentCache

variable {ν ε : Type} {compute : String → Except ε ν} {c c' : RecentCache ν} {text : String}
  {value : ν} {requests : List String}

/-- Of the texts requested the last 256 that can be computed, each where it was requested
last. -/
def recent (compute : String → Except ε ν) (requests : List String) : List String :=
  (requests.filter fun text => (compute text).isOk).dedup.rtake 256

theorem recent_of_error {e : ε} (requests : List String) (h : compute text = .error e) :
    recent compute (requests ++ [text]) = recent compute requests := by
  simp [recent, h, Except.isOk, Except.toBool]

theorem recent_of_ok (requests : List String) (h : compute text = .ok value) :
    recent compute (requests ++ [text]) =
      ((recent compute requests).filter (· ≠ text) ++ [text]).rtake 256 := by
  have hok : [text].filter (fun text => (compute text).isOk) = [text] := by
    simp [h, Except.isOk, Except.toBool]
  rw [recent, List.filter_append, hok, dedup_append_singleton, recent,
    rtake_filter_append_singleton (List.nodup_dedup _)]

theorem entries_trim (m : InsertionMap String ν) : (trim m).entries = m.entries.rtake 256 := by
  simp only [trim, List.rtake, InsertionMap.size, capacity]

/-- A request moves its text to the end, and only the last texts stay. -/
theorem keys_request (hsize : c.entries.keys.length ≤ 256)
    (h : c.request compute text = .ok (value, c')) :
    c'.entries.keys = (c.entries.keys.filter (· ≠ text) ++ [text]).rtake 256 := by
  unfold request at h
  cases hkept : c.entries.get? text with
  | some kept =>
    rw [hkept] at h
    cases h
    have hmem : text ∈ c.entries.keys := by
      by_contra hnot
      rw [InsertionMap.get?_eq_none_iff.2 hnot] at hkept
      cases hkept
    have hlength : (c.entries.keys.filter (· ≠ text) ++ [text]).length ≤ 256 := by
      have hlt : (c.entries.keys.filter (· ≠ text)).length < c.entries.keys.length :=
        List.length_filter_lt_length_iff_exists.2 ⟨text, hmem, by simp⟩
      rw [List.length_append, List.length_singleton]
      omega
    have hkeys : (c.entries.erase text).keys = c.entries.keys.filter (· ≠ text) := by
      simp [InsertionMap.keys, InsertionMap.erase, List.filter_map, Function.comp_def]
    rw [rtake_of_length_le hlength, ← hkeys, InsertionMap.keys,
      InsertionMap.entries_insert_of_get?_eq_none _ (InsertionMap.get?_erase_self _ _),
      List.map_append]
    rfl
  | none =>
    rw [hkept] at h
    cases hcompute : compute text with
    | error e => rw [hcompute] at h; cases h
    | ok computed =>
      rw [hcompute] at h
      cases h
      have hnot : text ∉ c.entries.keys := InsertionMap.get?_eq_none_iff.1 hkept
      have hall : c.entries.keys.filter (· ≠ text) = c.entries.keys := by
        rw [List.filter_eq_self]
        intro key hkey
        simpa using fun heq : key = text => hnot (heq ▸ hkey)
      rw [hall, InsertionMap.keys, entries_trim, map_rtake,
        InsertionMap.entries_insert_of_get?_eq_none _ hkept, List.map_append]
      rfl

structure Recalls (compute : String → Except ε ν) (requests : List String) (c : RecentCache ν) :
    Prop where
  keys_eq : c.entries.keys = recent compute requests
  faithful : c.Faithful compute

theorem recalls_empty (compute : String → Except ε ν) : Recalls compute [] {} where
  keys_eq := by
    rw [recent, List.filter_nil, List.dedup_nil, List.rtake_nil]
    rfl
  faithful := fun _ _ h => by cases h

namespace Recalls

theorem length_keys_le (h : Recalls compute requests c) : c.entries.keys.length ≤ 256 := by
  rw [h.keys_eq, recent, List.rtake, List.length_drop]
  omega

/-- A request is answered as if nothing were kept, and a text that fails leaves no trace. -/
theorem request_cases (h : Recalls compute requests c) (text : String) :
    (∃ e, compute text = .error e ∧ c.request compute text = .error e ∧
        Recalls compute (requests ++ [text]) c) ∨
      ∃ value c', compute text = .ok value ∧ c.request compute text = .ok (value, c') ∧
        Recalls compute (requests ++ [text]) c' := by
  rcases h.faithful.request_cases text with ⟨e, herror, heq⟩ | ⟨value, c', hok, heq, hfaithful⟩
  · exact Or.inl ⟨e, herror, heq, (recent_of_error requests herror).symm ▸ h.keys_eq, h.faithful⟩
  · refine Or.inr ⟨value, c', hok, heq, ?_, hfaithful⟩
    rw [keys_request h.length_keys_le heq, h.keys_eq, recent_of_ok requests hok]

/-- Each text that is kept has its own value. -/
theorem entries_eq (h : Recalls compute requests c) :
    c.entries.entries.map (fun entry => (entry.1, (.ok entry.2 : Except ε ν))) =
      (recent compute requests).map fun text => (text, compute text) := by
  rw [← h.keys_eq, InsertionMap.keys, List.map_map]
  refine List.map_congr_left fun entry hentry => ?_
  rw [Function.comp_apply, h.faithful _ _ (InsertionMap.mem_entries_iff.1 hentry)]

end Recalls

end RecentCache

inductive CacheCall where
  | expression (source : String)
  | relation (source : String)
  | clear
deriving DecidableEq, Repr

namespace CacheCall

def expression? : CacheCall → Option String
  | expression source => some source
  | _ => none

def relation? : CacheCall → Option String
  | relation source => some source
  | _ => none

def sinceClear (calls : List CacheCall) : List CacheCall := calls.rtakeWhile (· ≠ clear)

def expressionSources (calls : List CacheCall) : List String :=
  (sinceClear calls).filterMap expression?

def relationSources (calls : List CacheCall) : List String :=
  (sinceClear calls).filterMap relation?

theorem sinceClear_append_clear (calls : List CacheCall) : sinceClear (calls ++ [clear]) = [] := by
  rw [sinceClear, List.rtakeWhile_concat_neg _ _ _ (by simp)]

theorem sinceClear_append (calls : List CacheCall) {call : CacheCall} (h : call ≠ clear) :
    sinceClear (calls ++ [call]) = sinceClear calls ++ [call] := by
  rw [sinceClear, List.rtakeWhile_concat_pos _ _ _ (by simpa using h), sinceClear]

end CacheCall

namespace ParseCache

open CacheCall

variable {α : Type} [Arithmetic α]

def perform (c : ParseCache α) : CacheCall → ParseCache α
  | .expression source =>
    match c.expression source with
    | .ok (_, c') => c'
    | .error _ => c
  | .relation source =>
    match c.relation source with
    | .ok (_, c') => c'
    | .error _ => c
  | .clear => ∅

def after (calls : List CacheCall) : ParseCache α := calls.foldl perform ∅

/-- Both caches keep what was asked of them since they were cleared. -/
structure Recalls (calls : List CacheCall) (c : ParseCache α) : Prop where
  expressions : c.expressions.Recalls SourceTree.parse (expressionSources calls)
  relations : c.relations.Recalls SourceRelation.parse (relationSources calls)

theorem after_append_singleton (calls : List CacheCall) (call : CacheCall) :
    (after (calls ++ [call]) : ParseCache α) = (after calls).perform call := by
  simp [after]

variable {calls : List CacheCall} {c : ParseCache α}

namespace Recalls

theorem expression_cases (h : Recalls calls c) (source : String) :
    (∃ e, (SourceTree.parse source : Except _ (SourceTree α Nat)) = .error e ∧
        c.expression source = .error e ∧ Recalls (calls ++ [.expression source]) c) ∨
      ∃ tree c', SourceTree.parse source = .ok tree ∧ c.expression source = .ok (tree, c') ∧
        Recalls (calls ++ [.expression source]) c' := by
  have hsince : expressionSources (calls ++ [.expression source]) =
      expressionSources calls ++ [source] := by
    rw [expressionSources, sinceClear_append calls (by simp), List.filterMap_append]
    rfl
  have hother : relationSources (calls ++ [.expression source]) = relationSources calls := by
    rw [relationSources, sinceClear_append calls (by simp), List.filterMap_append]
    exact List.append_nil _
  unfold expression
  rcases h.expressions.request_cases source with
    ⟨e, herror, heq, hrecalls⟩ | ⟨tree, expressions, hok, heq, hrecalls⟩ <;> rw [heq]
  · exact Or.inl ⟨e, herror, rfl, hsince ▸ hrecalls, hother ▸ h.relations⟩
  · exact Or.inr ⟨tree, _, hok, rfl, hsince ▸ hrecalls, hother ▸ h.relations⟩

theorem relation_cases (h : Recalls calls c) (source : String) :
    (∃ e, (SourceRelation.parse source : Except _ (SourceRelation α Nat)) = .error e ∧
        c.relation source = .error e ∧ Recalls (calls ++ [.relation source]) c) ∨
      ∃ r c', SourceRelation.parse source = .ok r ∧ c.relation source = .ok (r, c') ∧
        Recalls (calls ++ [.relation source]) c' := by
  have hsince : relationSources (calls ++ [.relation source]) =
      relationSources calls ++ [source] := by
    rw [relationSources, sinceClear_append calls (by simp), List.filterMap_append]
    rfl
  have hother : expressionSources (calls ++ [.relation source]) = expressionSources calls := by
    rw [expressionSources, sinceClear_append calls (by simp), List.filterMap_append]
    exact List.append_nil _
  unfold relation
  rcases h.relations.request_cases source with
    ⟨e, herror, heq, hrecalls⟩ | ⟨r, relations, hok, heq, hrecalls⟩ <;> rw [heq]
  · exact Or.inl ⟨e, herror, rfl, hother ▸ h.expressions, hsince ▸ hrecalls⟩
  · exact Or.inr ⟨r, _, hok, rfl, hother ▸ h.expressions, hsince ▸ hrecalls⟩

/-- Every call keeps it. -/
theorem perform (h : Recalls calls c) (call : CacheCall) :
    Recalls (calls ++ [call]) (c.perform call) := by
  cases call with
  | expression source =>
    rw [ParseCache.perform]
    rcases h.expression_cases source with
      ⟨e, -, heq, hrecalls⟩ | ⟨tree, c', -, heq, hrecalls⟩ <;> rw [heq]
    · exact hrecalls
    · exact hrecalls
  | relation source =>
    rw [ParseCache.perform]
    rcases h.relation_cases source with
      ⟨e, -, heq, hrecalls⟩ | ⟨r, c', -, heq, hrecalls⟩ <;> rw [heq]
    · exact hrecalls
    · exact hrecalls
  | clear =>
    constructor
    · rw [expressionSources, sinceClear_append_clear]
      exact RecentCache.recalls_empty _
    · rw [relationSources, sinceClear_append_clear]
      exact RecentCache.recalls_empty _

end Recalls

theorem recalls_after (calls : List CacheCall) : Recalls calls (after calls : ParseCache α) := by
  induction calls using List.reverseRecOn with
  | nil => exact ⟨RecentCache.recalls_empty _, RecentCache.recalls_empty _⟩
  | append_singleton calls call ih =>
    rw [after_append_singleton]
    exact ih.perform call

/-- Whatever was asked before, a text is answered as it is parsed. Each cache keeps the texts
requested from it since the caches were cleared that parse, up to 256 of them, in the order
of their last requests, each with its own tree. A text that does not parse changes neither
cache. -/
theorem caches_recall_recent (calls : List CacheCall) :
    let c : ParseCache α := after calls
    (∀ source, (c.expression source).map Prod.fst = SourceTree.parse source) ∧
    (∀ source, (c.relation source).map Prod.fst = SourceRelation.parse source) ∧
    c.expressions.entries.entries.map (fun entry => (entry.1, .ok entry.2)) =
      (RecentCache.recent (ν := SourceTree α Nat) SourceTree.parse (expressionSources calls)).map
        (fun source => (source, SourceTree.parse source)) ∧
    c.relations.entries.entries.map (fun entry => (entry.1, .ok entry.2)) =
      (RecentCache.recent (ν := SourceRelation α Nat) SourceRelation.parse
        (relationSources calls)).map (fun source => (source, SourceRelation.parse source)) ∧
    (∀ source e, (SourceTree.parse source : Except SyntaxError (SourceTree α Nat)) = .error e →
      after (calls ++ [.expression source]) = c) ∧
    ∀ source e,
      (SourceRelation.parse source : Except SyntaxError (SourceRelation α Nat)) = .error e →
      after (calls ++ [.relation source]) = c := by
  intro c
  have hc : Recalls calls c := recalls_after calls
  refine ⟨fun source => ?_, fun source => ?_, hc.expressions.entries_eq, hc.relations.entries_eq,
    fun source e herror => ?_, fun source e herror => ?_⟩
  · rcases hc.expression_cases source with ⟨e, hparse, heq, -⟩ | ⟨tree, c', hparse, heq, -⟩ <;>
      rw [hparse, heq] <;> rfl
  · rcases hc.relation_cases source with ⟨e, hparse, heq, -⟩ | ⟨r, c', hparse, heq, -⟩ <;>
      rw [hparse, heq] <;> rfl
  · rw [after_append_singleton, ParseCache.perform]
    rcases hc.expression_cases source with ⟨e', -, heq, -⟩ | ⟨tree, c', hparse, -⟩
    · rw [heq]
    · rw [herror] at hparse
      cases hparse
  · rw [after_append_singleton, ParseCache.perform]
    rcases hc.relation_cases source with ⟨e', -, heq, -⟩ | ⟨r, c', hparse, -⟩
    · rw [heq]
    · rw [herror] at hparse
      cases hparse

end ParseCache

end NamedConstants
