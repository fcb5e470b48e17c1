import FastDb.Foundation.Multimap

/-! # Grouping a range

`RangeUtils::group_by` of `common/range_utils.cppm`, with the key and value types given. It
inserts the items of the range one by one into a `std::multimap`, so that the values of one
key come in the order of the range, none lost and none twice
(`FastDb.Util.groupBy_stable`).
-/

namespace FastDb.Util

open Foundation

/-- `RangeUtils`: a copy of the range. -/
structure RangeUtils (α : Type*) where
  range : List α

namespace RangeUtils

variable {α κ ν : Type*}

/-- `group_by<key_type>(f)`. -/
def groupBy (order : KeyOrder κ) (f : α → κ) (utils : RangeUtils α) : Multimap order α :=
  utils.range.foldl (fun mymap item => mymap.insert (f item, item)) Multimap.empty

/-- `group_by<key_type, value_type_n>(fnk, fnv)`. -/
def groupByKeyValue (order : KeyOrder κ) (fnk : α → κ) (fnv : α → ν) (utils : RangeUtils α) :
    Multimap order ν :=
  utils.range.foldl
    (fun mymap item =>
      let key := fnk item
      let val := fnv item
      mymap.insert (key, val))
    Multimap.empty

/-- The pairs are inserted in the order of the range. -/
theorem groupByKeyValue_eq_insertAll (order : KeyOrder κ) (fnk : α → κ) (fnv : α → ν)
    (utils : RangeUtils α) :
    utils.groupByKeyValue order fnk fnv =
      (utils.range.map fun item => (fnk item, fnv item)).foldl Multimap.insert
        Multimap.empty := by
  rw [List.foldl_map]
  rfl

/-- The group of a key has the values of its items in order. -/
theorem equalRange_groupByKeyValue (order : KeyOrder κ) (fnk : α → κ) (fnv : α → ν)
    (utils : RangeUtils α) (key : κ) :
    (utils.groupByKeyValue order fnk fnv).equalRange key =
      (utils.range.filter fun item => order.equivalent (fnk item) key).map fnv := by
  rw [groupByKeyValue_eq_insertAll, Multimap.equalRange_insertAll, Multimap.equalRange_empty,
    List.nil_append, List.filter_map, List.map_map]
  rfl

/-- Every item is in a group. -/
theorem size_groupByKeyValue (order : KeyOrder κ) (fnk : α → κ) (fnv : α → ν)
    (utils : RangeUtils α) :
    (utils.groupByKeyValue order fnk fnv).size = utils.range.length := by
  rw [groupByKeyValue_eq_insertAll, Multimap.size_insertAll, List.length_map]
  exact Nat.zero_add _

end RangeUtils

open RangeUtils

variable {α κ ν : Type*}

/-- **`group_by` is a stable partition.** Under each key are the values of the items with an
equal key, in the order of the range. Keys are equal when neither is less, which for an order
that separates keys says that they are the same. There are as many values as items, and the
overload with one function is that with two of which the second is the identity. -/
theorem groupBy_stable [DecidableEq κ] (order : KeyOrder κ) (fnk : α → κ) (fnv : α → ν)
    (utils : RangeUtils α) :
    (∀ key, (utils.groupByKeyValue order fnk fnv).equalRange key =
      (utils.range.filter fun item => order.equivalent (fnk item) key).map fnv) ∧
    (order.Separates → ∀ key, (utils.groupByKeyValue order fnk fnv).equalRange key =
      (utils.range.filter fun item => fnk item = key).map fnv) ∧
    (utils.groupByKeyValue order fnk fnv).size = utils.range.length ∧
    utils.groupBy order fnk = utils.groupByKeyValue order fnk id := by
  have grouped := equalRange_groupByKeyValue order fnk fnv utils
  refine ⟨grouped, fun separates key => ?_, size_groupByKeyValue order fnk fnv utils, rfl⟩
  rw [grouped]
  congr 1
  refine List.filter_congr fun item _ => ?_
  rw [Bool.eq_iff_iff, separates.equivalent_iff, decide_eq_true_eq]

/-- Numbers by their last digit. -/
theorem groupBy_stable_digits :
    (((⟨[13, 5, 23, 3]⟩ : RangeUtils Nat).groupByKeyValue (KeyOrder.ofLinearOrder Nat) (· % 10)
        (· / 10)).equalRange 3 = [1, 2, 0]) ∧
      (([13, 5, 23, 3].filter fun item => item % 10 = 3).map (· / 10)) = [1, 2, 0] :=
  ⟨((groupBy_stable (KeyOrder.ofLinearOrder Nat) (· % 10) (· / 10) ⟨[13, 5, 23, 3]⟩).2.1
    (KeyOrder.separates_ofLinearOrder Nat) 3).trans (by decide), by decide⟩

end FastDb.Util
