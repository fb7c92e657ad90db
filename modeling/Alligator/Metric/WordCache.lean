import Alligator.Lib.RefCount
import Alligator.Metric.Labels

/-!
# The word cache

The names and keys of all stored chains share one table of words with reference
counts, `labels_words_hash`.  `make_node` raises the counts of a chain with
`labels_cache_fill`, and `metric_delete_inner` lowers those of the chain it
throws away with `labels_free`.
-/

namespace Alligator

open RefCount List

/-- `labels_words_hash`: the words with their counts. -/
abbrev WordCache := Table Str

/-- `labels_cache_fill`: the name of every label, and its key if it has one. -/
def labelsCacheFill (words : WordCache) : Labels → WordCache
  | [] => words
  | l :: labels =>
    let words := retain words l.name
    match l.key with
    | none => labelsCacheFill words labels
    | some key => labelsCacheFill (retain words key) labels

/-- `labels_free`, as far as it concerns the words. -/
def labelsFree (words : WordCache) : Labels → WordCache
  | [] => words
  | l :: labels =>
    let words := release words l.name
    match l.key with
    | none => labelsFree words labels
    | some key => labelsFree (release words key) labels

/-- The words of a chain: every name, and the keys that are there. -/
def chainWords (labels : Labels) : List Str := labels.flatMap fun l => l.name :: l.key.toList

lemma labelsCacheFill_eq (labels : Labels) (words) :
    labelsCacheFill words labels = (chainWords labels).foldl retain words := by
  induction labels generalizing words with
  | nil => exact rfl
  | cons l labels ih =>
    rw [labelsCacheFill, chainWords, flatMap_cons]
    cases l.key <;> exact ih _

lemma labelsFree_eq (labels : Labels) (words) :
    labelsFree words labels = (chainWords labels).foldl release words := by
  induction labels generalizing words with
  | nil => exact rfl
  | cons l labels ih =>
    rw [labelsFree, chainWords, flatMap_cons]
    cases l.key <;> exact ih _

end Alligator
