import MarketSignals.Batch.Columns
import MarketSignals.Proofs.Outcome

/-!
# Batches that can be run

A batch is refused for one of four reasons, and for no other.  Where none holds,
every row has an event, and making it reads every column inside its bounds.

## Main definitions

* `Flawed` — the reasons to refuse a batch.
* `IsRow`, `Lists` — the event of a row, and the events of all rows.
* `take` — the first rows of a batch.

## Main results

* `validateSchema_eq_ok_iff` — the check refuses exactly the flawed batches.
* `lists_events` — the rows of a batch that is not flawed.
* `events_take`, `not_flawed_take` — the first rows are a batch by themselves.
-/

namespace MarketSignals.Batch

variable {ε : Type} {b : Batch} {slots : List (Handle × Slot ε)} {row k : Nat}

/-! ## What may be wrong with a batch -/

/-- Why a batch is not run on the estimators in some slots. -/
inductive Flawed (b : Batch) (slots : List (Handle × Slot ε)) : Prop
  /-- A column has more rows or fewer than there are timestamps. -/
  | uneven {field : EventField} {column : Array Float} (present : b.column? field = some column)
      (differs : column.size ≠ b.size)
  /-- One of the trade columns is missing. -/
  | loneTrade (lone : b.tradePrice.isSome ≠ b.tradeSize.isSome)
  /-- A timestamp is before the one of the row in front. -/
  | backwards {row : Nat} {t next : UInt64} (here : b.timestamps[row]? = some t)
      (behind : b.timestamps[row + 1]? = some next) (less : next < t)
  /-- An estimator reads trades, and there are no trade columns. -/
  | noTrades {h : Handle} {s : Slot ε} (registered : (h, s) ∈ slots) (needs : s.needsTrade = true)
      (noPrice : b.tradePrice = none) (noSize : b.tradeSize = none)

theorem unevenColumn?_eq_none_iff :
    b.unevenColumn? = none ↔
      ∀ field column, b.column? field = some column → column.size = b.size := by
  have hall : ∀ field : EventField, field ∈ EventField.all := by
    intro field
    cases field <;> decide
  unfold unevenColumn?
  rw [List.findSome?_eq_none_iff]
  constructor
  · intro hnone field column hcolumn
    have hfield := hnone field (hall field)
    rw [hcolumn, Option.bind_some] at hfield
    refine Decidable.byContradiction fun hdiffers => ?_
    rw [if_neg hdiffers] at hfield
    cases hfield
  · intro heven field _
    cases hcolumn : b.column? field with
    | none => rfl
    | some column => rw [Option.bind_some, if_pos (heven field column hcolumn)]

/-- The search starts at row `n`, so it finds nothing exactly where no timestamp
of the list is before the one in front of it. -/
theorem backwardsFrom_eq_none_iff (n : Nat) (ts : List UInt64) :
    backwardsFrom n ts = none ↔
      ∀ row t next, ts[row]? = some t → ts[row + 1]? = some next → ¬ next < t := by
  fun_induction backwardsFrom n ts with
  | case1 n t next rest hless =>
      constructor
      · intro h
        cases h
      · intro hordered
        exact absurd hless (hordered 0 t next rfl rfl)
  | case2 n t next rest hle ih =>
      rw [ih]
      constructor
      · intro hordered row t' next' ht hnext
        cases row with
        | zero =>
            cases ht
            cases hnext
            exact hle
        | succ row => exact hordered row t' next' ht hnext
      · intro hordered row t' next' ht hnext
        exact hordered (row + 1) t' next' ht hnext
  | case3 ts n hshort =>
      refine iff_of_true rfl ?_
      intro row t next ht hnext
      match ts with
      | [] => cases ht
      | [_] => cases hnext
      | first :: second :: rest => exact (hshort first second rest rfl).elim

theorem validateShape_eq_ok_iff :
    b.validateShape = .ok () ↔
      (∀ field column, b.column? field = some column → column.size = b.size) ∧
        b.tradePrice.isSome = b.tradeSize.isSome ∧
          ∀ row t next, b.timestamps[row]? = some t → b.timestamps[row + 1]? = some next →
            ¬ next < t := by
  have hrows := backwardsFrom_eq_none_iff 0 b.timestamps.toList
  simp only [Array.getElem?_toList] at hrows
  rw [← unevenColumn?_eq_none_iff, ← hrows]
  unfold validateShape
  cases b.unevenColumn? with
  | some fault => simp
  | none =>
      by_cases hpair : b.tradePrice.isSome = b.tradeSize.isSome
      · cases backwardsFrom 0 b.timestamps.toList <;> simp [hpair]
      · simp [hpair]

theorem hasField_of_not_ofTrade {field : EventField} (hf : field.ofTrade = false) :
    b.hasField field = true := by
  cases field <;> first | rfl | cases hf

theorem hasField_of_ofTrade (hpair : b.tradePrice.isSome = b.tradeSize.isSome) {field : EventField}
    (hf : field.ofTrade = true) : b.hasField field = b.tradePrice.isSome := by
  cases field with
  | tradePrice => rfl
  | tradeSize => exact hpair.symm
  | _ => cases hf

/-- An estimator misses a column exactly when it reads trades and there are none. -/
theorem missing?_info_eq_none_iff (hpair : b.tradePrice.isSome = b.tradeSize.isSome) (h : Handle)
    (s : Slot ε) :
    b.missing? (s.info h) = none ↔ (s.needsTrade = true → b.tradePrice.isSome = true) := by
  have hfields : b.missing? (s.info h) = none ↔ ∀ field ∈ s.requiredFields, b.hasField field = true := by
    simp [missing?, Slot.info]
  rw [hfields, Slot.needsTrade, List.any_eq_true]
  constructor
  · rintro hall ⟨field, hm, htrade⟩
    rw [← hasField_of_ofTrade hpair htrade]
    exact hall field hm
  · intro hneeds field hm
    cases htrade : field.ofTrade with
    | false => exact hasField_of_not_ofTrade htrade
    | true =>
        rw [hasField_of_ofTrade hpair htrade]
        exact hneeds ⟨field, hm, htrade⟩

theorem size_column (hsound : ¬ b.Flawed slots) {field : EventField} {column : Array Float}
    (present : b.column? field = some column) : column.size = b.size :=
  Decidable.byContradiction fun hdiffers => hsound (.uneven present hdiffers)

theorem trades_paired (hsound : ¬ b.Flawed slots) :
    b.tradePrice.isSome = b.tradeSize.isSome :=
  Decidable.byContradiction fun hlone => hsound (.loneTrade hlone)

/-- The check of a batch refuses exactly the flawed batches. -/
theorem validateSchema_eq_ok_iff :
    b.validateSchema (slots.map fun (h, s) => s.info h) = .ok () ↔ ¬ b.Flawed slots := by
  have hmissing : (slots.map fun (h, s) => s.info h).findSome? b.missing? = none ↔
      ∀ h s, (h, s) ∈ slots → b.missing? (s.info h) = none := by
    rw [List.findSome?_eq_none_iff]
    constructor
    · intro hall h s registered
      exact hall _ (List.mem_map.mpr ⟨(h, s), registered, rfl⟩)
    · intro hall info hm
      obtain ⟨⟨h, s⟩, registered, rfl⟩ := List.mem_map.mp hm
      exact hall h s registered
  have hschema : b.validateSchema (slots.map fun (h, s) => s.info h) = .ok () ↔
      b.validateShape = .ok () ∧
        (slots.map fun (h, s) => s.info h).findSome? b.missing? = none := by
    unfold validateSchema
    rw [bind_eq_ok_iff]
    constructor
    · rintro ⟨⟨⟩, hshape, hrest⟩
      refine ⟨hshape, ?_⟩
      split at hrest
      · cases hrest
      · next hnone => exact hnone
    · rintro ⟨hshape, hnone⟩
      exact ⟨⟨⟩, hshape, by rw [hnone]⟩
  rw [hschema, validateShape_eq_ok_iff, hmissing]
  constructor
  · rintro ⟨⟨heven, hpair, hordered⟩, hcolumns⟩ hflawed
    cases hflawed with
    | uneven present differs => exact differs (heven _ _ present)
    | loneTrade lone => exact lone hpair
    | backwards here behind less => exact hordered _ _ _ here behind less
    | noTrades registered needs noPrice noSize =>
        have hsome := (missing?_info_eq_none_iff hpair _ _).mp (hcolumns _ _ registered) needs
        rw [noPrice] at hsome
        cases hsome
  · intro hsound
    have hpair := trades_paired hsound
    refine ⟨⟨fun _ _ present => size_column hsound present, hpair, ?_⟩, ?_⟩
    · intro row t next here behind less
      exact hsound (.backwards here behind less)
    · intro h s registered
      refine (missing?_info_eq_none_iff hpair h s).mpr fun needs => ?_
      cases hprice : b.tradePrice with
      | some prices => rfl
      | none =>
          have hsize : b.tradeSize = none := by simpa [hprice] using hpair.symm
          exact absurd (.noTrades registered needs hprice hsize) hsound

/-! ## Rows -/

/-- The trade columns of a row give this trade: none where there are no columns
or both figures are NaN. -/
def IsTrade (b : Batch) (row : Nat) (trade : Option TradePrint) : Prop :=
  match b.tradePrice, b.tradeSize with
  | some prices, some sizes => ∃ price size, prices[row]? = some price ∧ sizes[row]? = some size ∧
      trade = if price.isNaN && size.isNaN then none else some ⟨price, size⟩
  | _, _ => trade = none

/-- An event holds what the columns hold in a row, which is inside the bounds of
each of them. -/
structure IsRow (b : Batch) (row : Nat) (event : MarketEvent) : Prop where
  timestamp : b.timestamps[row]? = some event.timestamp.nanos
  instrumentId : event.instrumentId = b.instrumentId
  bidPrice : b.bidPrice[row]? = some event.bidPrice
  bidSize : b.bidSize[row]? = some event.bidSize
  askPrice : b.askPrice[row]? = some event.askPrice
  askSize : b.askSize[row]? = some event.askSize
  trade : b.IsTrade row event.trade

/-- The events of all rows in order. -/
def Lists (b : Batch) (events : List MarketEvent) : Prop :=
  events.length = b.size ∧ ∀ row event, events[row]? = some event → b.IsRow row event

/-- A column of a batch that is not flawed has an element in every row. -/
theorem exists_cell (hsound : ¬ b.Flawed slots) (hrow : row < b.size) (field : EventField)
    {column : Array Float} (present : b.column? field = some column) :
    ∃ x, column[row]? = some x := by
  have hlt : row < column.size := by
    rw [size_column hsound present]
    exact hrow
  exact ⟨column[row], Array.getElem?_eq_getElem hlt⟩

theorem isTrade_trade? (hsound : ¬ b.Flawed slots) (hrow : row < b.size) :
    b.IsTrade row (b.trade? row) := by
  unfold IsTrade trade?
  cases hprice : b.tradePrice with
  | none => rfl
  | some prices =>
      cases hsize : b.tradeSize with
      | none => simp
      | some sizes =>
          obtain ⟨price, hp⟩ := exists_cell hsound hrow .tradePrice hprice
          obtain ⟨size, hs⟩ := exists_cell hsound hrow .tradeSize hsize
          exact ⟨price, size, hp, hs, by simp [hp, hs]⟩

/-- Every row of a batch that is not flawed has an event. -/
theorem exists_event (hsound : ¬ b.Flawed slots) (hrow : row < b.size) :
    ∃ event, b.event? row = some event ∧ b.IsRow row event := by
  have htime : b.timestamps[row]? = some b.timestamps[row] := Array.getElem?_eq_getElem hrow
  obtain ⟨bidPrice, hbp⟩ := exists_cell hsound hrow .bidPrice rfl
  obtain ⟨bidSize, hbs⟩ := exists_cell hsound hrow .bidSize rfl
  obtain ⟨askPrice, hap⟩ := exists_cell hsound hrow .askPrice rfl
  obtain ⟨askSize, has⟩ := exists_cell hsound hrow .askSize rfl
  refine ⟨⟨⟨b.timestamps[row]⟩, b.instrumentId, bidPrice, bidSize, askPrice, askSize,
    b.trade? row⟩, ?_, ?_⟩
  · simp [event?, htime, hbp, hbs, hap, has]
  · exact ⟨htime, rfl, hbp, hbs, hap, has, isTrade_trade? hsound hrow⟩

theorem event?_eq_none (hrow : b.size ≤ row) : b.event? row = none := by
  have htime : b.timestamps[row]? = none := Array.getElem?_eq_none hrow
  simp [event?, htime]

/-- No row is left out of the events. -/
theorem map_some_events (hsound : ¬ b.Flawed slots) :
    b.events.map some = (List.range b.size).map b.event? := by
  unfold events
  rw [List.map_filterMap_some_eq_filter_map_isSome, List.filter_eq_self]
  intro x hx
  obtain ⟨row, hrow, rfl⟩ := List.mem_map.mp hx
  obtain ⟨event, hevent, _⟩ := exists_event hsound (List.mem_range.mp hrow)
  rw [hevent]
  rfl

theorem length_events (hsound : ¬ b.Flawed slots) : b.events.length = b.size := by
  have hlength := congrArg List.length (map_some_events hsound)
  simpa using hlength

theorem getElem?_events (hsound : ¬ b.Flawed slots) (row : Nat) :
    b.events[row]? = b.event? row := by
  rcases Nat.lt_or_ge row b.size with hlt | hge
  · have hat := congrArg (fun l => l[row]?) (map_some_events hsound)
    simp only [List.getElem?_map, List.getElem?_range hlt, Option.map_some] at hat
    obtain ⟨event, hevent, hsome⟩ := Option.map_eq_some_iff.mp hat
    rw [hevent, hsome]
  · rw [event?_eq_none hge, List.getElem?_eq_none_iff, length_events hsound]
    exact hge

/-- The events of a batch that is not flawed are those of its rows. -/
theorem lists_events (hsound : ¬ b.Flawed slots) : b.Lists b.events := by
  refine ⟨length_events hsound, fun row event hevent => ?_⟩
  have hrow : row < b.size := by
    rw [← length_events hsound]
    exact (List.getElem?_eq_some_iff.mp hevent).1
  obtain ⟨event', hevent', his⟩ := exists_event hsound hrow
  rw [getElem?_events hsound, hevent'] at hevent
  cases hevent
  exact his

/-! ## The first rows -/

/-- The first rows of a batch. -/
def take (b : Batch) (k : Nat) : Batch where
  instrumentId := b.instrumentId
  timestamps := b.timestamps.take k
  bidPrice := b.bidPrice.take k
  bidSize := b.bidSize.take k
  askPrice := b.askPrice.take k
  askSize := b.askSize.take k
  tradePrice := b.tradePrice.map (·.take k)
  tradeSize := b.tradeSize.map (·.take k)

theorem getElem?_take {α : Type} (xs : Array α) (k row : Nat) :
    (xs.take k)[row]? = if row < k then xs[row]? else none := by
  rw [Array.take, Array.getElem?_extract, Nat.zero_add, Nat.sub_zero]
  by_cases hrow : row < xs.size
  · have hmin : row < min k xs.size ↔ row < k := by omega
    simp only [hmin]
  · have hnone : xs[row]? = none := Array.getElem?_eq_none (by omega)
    simp only [hnone, ite_self]

@[simp] theorem size_take (b : Batch) (k : Nat) : (b.take k).size = min k b.size := by
  simp [take, size]

theorem column?_take (b : Batch) (k : Nat) (field : EventField) :
    (b.take k).column? field = (b.column? field).map (·.take k) := by
  cases field <;> rfl

/-- The first rows of a batch that is not flawed are not flawed. -/
theorem not_flawed_take (hsound : ¬ b.Flawed slots) (k : Nat) : ¬ (b.take k).Flawed slots := by
  intro hflawed
  cases hflawed with
  | uneven present differs =>
      rw [column?_take, Option.map_eq_some_iff] at present
      obtain ⟨column, present, rfl⟩ := present
      apply differs
      rw [size_take, ← size_column hsound present]
      simp
  | loneTrade lone =>
      apply lone
      simpa [take] using trades_paired hsound
  | backwards here behind less =>
      have hfull : ∀ {n : Nat} {t : UInt64}, (b.take k).timestamps[n]? = some t →
          b.timestamps[n]? = some t := by
        intro n t ht
        rw [take, getElem?_take] at ht
        split at ht
        · exact ht
        · cases ht
      exact hsound (.backwards (hfull here) (hfull behind) less)
  | noTrades registered needs noPrice noSize =>
      refine hsound (.noTrades registered needs ?_ ?_)
      · simpa [take] using noPrice
      · simpa [take] using noSize

theorem trade?_take (b : Batch) {k row : Nat} (hrow : row < k) :
    (b.take k).trade? row = b.trade? row := by
  unfold trade? take
  cases b.tradePrice with
  | none => rfl
  | some prices =>
      cases b.tradeSize with
      | none => simp
      | some sizes => simp [getElem?_take, hrow]

theorem event?_take (b : Batch) (k row : Nat) :
    (b.take k).event? row = if row < k then b.event? row else none := by
  by_cases hrow : row < k
  · have htrade := trade?_take b hrow
    simp only [event?, htrade]
    simp [take, getElem?_take, hrow]
  · rw [if_neg hrow, event?_eq_none]
    rw [size_take]
    omega

/-- The events of the first rows are the first events. -/
theorem events_take (hsound : ¬ b.Flawed slots) (k : Nat) :
    (b.take k).events = b.events.take k := by
  apply List.ext_getElem?
  intro row
  rw [getElem?_events (not_flawed_take hsound k), event?_take, List.getElem?_take,
    getElem?_events hsound]

end MarketSignals.Batch
