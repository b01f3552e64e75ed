import Iocore.Foundation.Tables
import Iocore.Logger.Message
import Iocore.PerfCounter.Buckets
import Iocore.PerfCounter.Histogram
import Iocore.PerfCounter.Sequential

/-!
# The table that is printed

`operator<<` prints the fields of a counter and its histogram as a table of two
columns.  Whoever cuts its lines into cells gets back what the counter keeps of
the values, as long as no text that is printed has a `|` or ends a line or ends
in a blank.

The order in which an `unordered_map` is gone through is a parameter, and so is
`boost::lexical_cast`, of which only what is documented is used, that it writes a
number in decimal, and the texts of the numbers that are computed in doubles.  A
stream has no width set between two outputs; the fill character and the
adjustment may be any.
-/

namespace Iocore

open Foundation Foundation.System Logger

structure OStream where
  text : Text
  width : ℕ
  fill : Char
  left : Bool
  deriving DecidableEq, Repr

namespace OStream

def insert (os : OStream) (t : Text) : OStream :=
  let padding := List.replicate (os.width - t.length) os.fill
  { os with
    text := os.text ++ if os.left then t ++ padding else padding ++ t
    width := 0 }

def setw (os : OStream) (width : ℕ) : OStream := { os with width := width }

def setfill (os : OStream) (fill : Char) : OStream := { os with fill := fill }

def setLeft (os : OStream) : OStream := { os with left := true }

def endl (os : OStream) : OStream := { os with text := os.text ++ ['\n'] }

theorem insert_width (os : OStream) (t : Text) : (os.insert t).width = 0 := rfl

theorem insert_plain {os : OStream} (width : os.width = 0) (t : Text) :
    os.insert t = { os with text := os.text ++ t } := by
  rw [insert, width, Nat.zero_sub, List.replicate_zero, List.append_nil,
    List.nil_append, ite_self, ← width]

theorem insert_line {os : OStream} (width : os.width = 0) (t t' : Text) :
    ((os.insert t).insert t').endl =
      { os with text := os.text ++ (t ++ t' ++ ['\n']) } := by
  rw [insert_plain (insert_width os t), insert_plain width, endl]
  simp only [List.append_assoc]

end OStream

namespace PerfCounter.Table

def drawLine (os : OStream) : OStream :=
  let os := os.insert ['+']
  let os := ((os.setfill '-').setw 30).insert ['-']
  let os := os.insert ['+']
  let os := ((os.setfill '-').setw 30).insert ['-']
  let os := os.insert ['+']
  os.endl.setfill ' '

def printKeyValue (os : OStream) (key val : Text) : OStream :=
  let os := os.insert ['|']
  let os := (os.setw 30).setLeft.insert key
  let os := os.insert ['|']
  let os := (os.setw 30).setLeft.insert val
  let os := os.insert ['|']
  os.endl

def printAll (os : OStream) (kvs : List (Text × Text)) : OStream :=
  kvs.foldl (fun os kv => printKeyValue os kv.1 kv.2) os

def print (os : OStream) (kvs : List (Text × Text)) : OStream :=
  drawLine (printAll (drawLine os) kvs)

/-- `STR`, of an integer and of a double that is whole. -/
structure LexicalCast where
  ofInt : ℕ → Text
  ofDouble : ℕ → Text

structure Numeral (n : ℕ) (t : Text) : Prop where
  digits : ∀ c ∈ t, c.isDigit = true
  value : Nat.ofDigitChars 10 t 0 = n

/-- Larger doubles may be written with an exponent. -/
structure LexicalCast.Decimal (STR : LexicalCast) : Prop where
  ofInt : ∀ n < 2 ^ 64, Numeral n (STR.ofInt n)
  ofDouble : ∀ n < 1000, Numeral n (STR.ofDouble n)

variable (STR : LexicalCast)

def toH (str : ℕ → Text) (val : ℕ) : Text :=
  if val ≥ 1000 * 1000 then STR.ofInt (val / (1000 * 1000)) ++ ['M']
  else if val ≥ 1000 then STR.ofInt (val / 1000) ++ ['K']
  else str val

/-- The bounds of a range are doubles. -/
def bucketKey (i : Fin 32) : Text :=
  toH STR STR.ofDouble (lo i) ++ ['-'] ++ toH STR STR.ofDouble (hi i)

structure Doubles where
  time : Text
  avg : Text
  bytesPerSec : Text
  opsPerSec : Text

/-- `kv[key] = val`, in a map that is a list in no particular order. -/
def assign (kv : List (Text × Text)) (key val : Text) : List (Text × Text) :=
  (key, val) :: kv.filter fun e => e.1 ≠ key

def entries (units : Text) (type : CounterType) (doubles : Doubles)
    (pc : PerfCounter) : List (Text × Text) :=
  let kv := assign [] "Aggregate-value".toList (STR.ofInt pc.val.toNat)
  let kv := assign kv "Count".toList (STR.ofInt pc.count.toNat)
  let kv := assign kv "Time".toList (doubles.time ++ [' ', 's'])
  let kv := assign kv "Max".toList (STR.ofInt pc.max.toNat ++ [' '] ++ units)
  let kv := assign kv "Min".toList (STR.ofInt pc.min.toNat ++ [' '] ++ units)
  let kv := assign kv "Avg".toList (doubles.avg ++ [' '] ++ units)
  if type = .bytes then
    let kv := assign kv (units ++ "-per-sec".toList) doubles.bytesPerSec
    assign kv "ops-per-sec".toList doubles.opsPerSec
  else kv

def bucketEntry (line : Fin 32 × UInt32) : Text × Text :=
  (bucketKey STR line.1, toH STR STR.ofInt line.2.toNat)

def printBucket (pc : PerfCounter) (os : OStream) (i : Fin 32) : OStream :=
  if pc.bucket i = 0 then os
  else
    let entry := bucketEntry STR (i, pc.bucket i)
    printKeyValue os entry.1 entry.2

/-- `operator<<`, while nothing is updated. -/
def output (name units : Text) (type : CounterType) (doubles : Doubles)
    (order : List (Text × Text) → List (Text × Text)) (pc : PerfCounter)
    (os : OStream) : OStream :=
  let os := ((os.insert "Perfcoutner: ".toList).insert name).endl
  if pc.count = 0 then os
  else
    let os := print os (order (entries STR units type doubles pc))
    let os := if pc.count ≠ 0 then (List.finRange 32).foldl (printBucket STR pc) os
      else os
    drawLine os

/-! ## The lines -/

def rule : Text :=
  '+' :: List.replicate 30 '-' ++ '+' :: List.replicate 30 '-' ++ ['+']

def entryRow (kv : Text × Text) : Text := row '|' ' ' 30 [kv.1, kv.2]

structure Prints (os : OStream) (lines : List Text) (os' : OStream) : Prop where
  text : os'.text = os.text ++ lines.flatMap (· ++ ['\n'])
  width : os'.width = 0
  fill : os'.fill = ' '

namespace Prints

variable {os os' os'' : OStream} {lines lines' : List Text}

theorem trans (h : Prints os lines os') (h' : Prints os' lines' os'') :
    Prints os (lines ++ lines') os'' where
  text := by rw [h'.text, h.text, List.flatMap_append, List.append_assoc]
  width := h'.width
  fill := h'.fill

theorem drawLine (width : os.width = 0) :
    Prints os [rule] (Table.drawLine os) where
  text := by
    cases hleft : os.left <;>
      simp [Table.drawLine, OStream.insert, OStream.setw, OStream.setfill,
        OStream.endl, rule, width, hleft, List.replicate]
  width := rfl
  fill := rfl

theorem printKeyValue (width : os.width = 0) (fill : os.fill = ' ')
    (kv : Text × Text) :
    Prints os [entryRow kv] (Table.printKeyValue os kv.1 kv.2) where
  text := by
    cases hleft : os.left <;>
      simp [Table.printKeyValue, OStream.insert, OStream.setw, OStream.setLeft,
        OStream.endl, entryRow, row, pad, width, fill, hleft]
  width := rfl
  fill := fill

theorem nothing (width : os.width = 0) (fill : os.fill = ' ') :
    Prints os [] os :=
  ⟨(List.append_nil _).symm, width, fill⟩

theorem printAll (width : os.width = 0) (fill : os.fill = ' ')
    (kvs : List (Text × Text)) :
    Prints os (kvs.map entryRow) (Table.printAll os kvs) := by
  induction kvs generalizing os with
  | nil => exact nothing width fill
  | cons kv kvs ih =>
      have first := printKeyValue width fill kv
      exact first.trans (ih first.width first.fill)

theorem print (width : os.width = 0) (kvs : List (Text × Text)) :
    Prints os ([rule] ++ kvs.map entryRow ++ [rule]) (Table.print os kvs) := by
  have top := drawLine width
  have rows := top.trans (printAll top.width top.fill kvs)
  exact rows.trans (drawLine rows.width)

theorem printBuckets (width : os.width = 0) (fill : os.fill = ' ')
    (pc : PerfCounter) (buckets : List (Fin 32)) :
    Prints os ((buckets.filterMap pc.bucketLine).map
        fun line => entryRow (bucketEntry STR line))
      (buckets.foldl (printBucket STR pc) os) := by
  induction buckets generalizing os with
  | nil => exact nothing width fill
  | cons i buckets ih =>
      by_cases hzero : pc.bucket i = 0
      · have hline : pc.bucketLine i = none := if_pos hzero
        have hskip : printBucket STR pc os i = os := if_pos hzero
        rw [List.filterMap_cons_none hline, List.foldl_cons, hskip]
        exact ih width fill
      · have hline : pc.bucketLine i = some (i, pc.bucket i) := if_neg hzero
        have hprint : printBucket STR pc os i = Table.printKeyValue os
            (bucketEntry STR (i, pc.bucket i)).1
            (bucketEntry STR (i, pc.bucket i)).2 :=
          if_neg hzero
        rw [List.filterMap_cons_some hline, List.foldl_cons, hprint]
        have first := printKeyValue width fill (bucketEntry STR (i, pc.bucket i))
        exact first.trans (ih first.width first.fill)

end Prints

def heading (name : Text) : Text := "Perfcoutner: ".toList ++ name

def rows (units : Text) (type : CounterType) (doubles : Doubles)
    (order : List (Text × Text) → List (Text × Text)) (pc : PerfCounter) :
    List (Text × Text) :=
  order (entries STR units type doubles pc) ++ pc.bucketLines.map (bucketEntry STR)

section

variable {name units : Text} {type : CounterType} {doubles : Doubles}
  {order : List (Text × Text) → List (Text × Text)} {pc : PerfCounter}
  {os : OStream}

theorem output_eq (width : os.width = 0) (counted : pc.count ≠ 0) :
    output STR name units type doubles order pc os =
      drawLine ((List.finRange 32).foldl (printBucket STR pc)
        (print { os with text := os.text ++ (heading name ++ ['\n']) }
          (order (entries STR units type doubles pc)))) := by
  unfold output heading
  simp only [OStream.insert_line width, counted, if_false, ne_eq,
    not_false_eq_true, if_true]

theorem output_text (width : os.width = 0) (counted : pc.count ≠ 0) :
    (output STR name units type doubles order pc os).text = os.text ++
      ([heading name, rule] ++
        (order (entries STR units type doubles pc)).map entryRow ++ [rule] ++
        (pc.bucketLines.map (bucketEntry STR)).map entryRow ++ [rule]).flatMap
          (· ++ ['\n']) := by
  let os₁ : OStream :=
    { os with text := os.text ++ (heading name ++ ['\n']) }
  have hwidth : os₁.width = 0 := width
  have table := Prints.print hwidth (order (entries STR units type doubles pc))
  have histogram := table.trans
    (Prints.printBuckets STR table.width table.fill pc (List.finRange 32))
  have all := histogram.trans (Prints.drawLine histogram.width)
  have hlines : pc.bucketLines = (List.finRange 32).filterMap pc.bucketLine :=
    if_neg counted
  rw [output_eq STR width counted, all.text, hlines]
  simp [os₁, List.flatMap_append, Function.comp_def]

end

/-! ## Reading the table -/

variable {STR}

def readEntry (line : Text) : Option (Text × Text) :=
  match readRow '|' ' ' line with
  | some [key, val] => some (key, val)
  | _ => none

def readTable (out : Text) : List (Text × Text) :=
  (linesOf '\n' out).filterMap readEntry

def Plain (t : Text) : Prop := '|' ∉ t ∧ '\n' ∉ t

instance (t : Text) : Decidable (Plain t) := by
  unfold Plain
  infer_instance

def Printable (t : Text) : Prop := Plain t ∧ t.getLast? ≠ some ' '

instance (t : Text) : Decidable (Printable t) := by
  unfold Printable
  infer_instance

theorem Plain.append {t t' : Text} (h : Plain t) (h' : Plain t') :
    Plain (t ++ t') := by
  simp only [Plain, List.mem_append, not_or]
  exact ⟨⟨h.1, h'.1⟩, h.2, h'.2⟩

theorem Plain.append_printable {t t' : Text} (h : Plain t) (h' : Printable t')
    (hne : t' ≠ []) : Printable (t ++ t') := by
  refine ⟨h.append h'.1, ?_⟩
  rw [List.getLast?_append_of_ne_nil _ hne]
  exact h'.2

section

variable {cls : Char → Bool} {t : Text}

theorem notMem_of_class (h : ∀ c ∈ t, cls c = true) {c : Char}
    (hc : cls c = false) : c ∉ t := by
  intro hmem
  rw [h c hmem] at hc
  cases hc

theorem printable_of_class (h : ∀ c ∈ t, cls c = true) (bar : cls '|' = false)
    (newline : cls '\n' = false) (blank : cls ' ' = false) : Printable t :=
  ⟨⟨notMem_of_class h bar, notMem_of_class h newline⟩,
    fun hlast => notMem_of_class h blank (List.mem_of_getLast? hlast)⟩

end

namespace Numeral

variable {n : ℕ} {t : Text}

theorem printable (h : Numeral n t) : Printable t :=
  printable_of_class h.digits rfl rfl rfl

theorem span (h : Numeral n t) {rest : Text}
    (hrest : ∀ c ∈ rest.head?, c.isDigit = false) :
    (t ++ rest).takeWhile Char.isDigit = t ∧
      (t ++ rest).dropWhile Char.isDigit = rest := by
  rw [List.takeWhile_append_of_pos h.digits, List.dropWhile_append_of_pos h.digits]
  cases rest with
  | nil => exact ⟨List.append_nil t, rfl⟩
  | cons c rest =>
      have hc : ¬ c.isDigit = true := by simp [hrest c rfl]
      rw [List.takeWhile_cons_of_neg hc, List.dropWhile_cons_of_neg hc]
      exact ⟨List.append_nil t, rfl⟩

end Numeral

def number (t : Text) : ℕ := Nat.ofDigitChars 10 (t.takeWhile Char.isDigit) 0

theorem Numeral.number_append {n : ℕ} {t : Text} (h : Numeral n t) {rest : Text}
    (hrest : ∀ c ∈ rest.head?, c.isDigit = false) : number (t ++ rest) = n := by
  rw [number, (h.span hrest).1, h.value]

/-! ## Abbreviated numbers -/

def abbreviated (val : ℕ) : ℕ × Text :=
  if val ≥ 1000 * 1000 then (val / (1000 * 1000), ['M'])
  else if val ≥ 1000 then (val / 1000, ['K'])
  else (val, [])

def isMark (c : Char) : Bool := c.isDigit || c = 'K' || c = 'M' || c = '-'

namespace LexicalCast.Decimal

theorem toH_eq (decimal : STR.Decimal) {str : ℕ → Text}
    (hstr : ∀ n < 1000, Numeral n (str n)) {val : ℕ} (hval : val < 2 ^ 64) :
    ∃ t, Numeral (abbreviated val).1 t ∧
      toH STR str val = t ++ (abbreviated val).2 := by
  unfold toH abbreviated
  split_ifs with hmillions hthousands
  · exact ⟨_, decimal.ofInt _ (by omega), rfl⟩
  · exact ⟨_, decimal.ofInt _ (by omega), rfl⟩
  · exact ⟨_, hstr val (by omega), (List.append_nil _).symm⟩

theorem toH_marks (decimal : STR.Decimal) {str : ℕ → Text}
    (hstr : ∀ n < 1000, Numeral n (str n)) {val : ℕ} (hval : val < 2 ^ 64) :
    ∀ c ∈ toH STR str val, isMark c = true := by
  obtain ⟨t, ht, heq⟩ := decimal.toH_eq hstr hval
  have hletter : ∀ c ∈ (abbreviated val).2, isMark c = true := by
    unfold abbreviated
    split_ifs <;> simp [isMark]
  rw [heq]
  refine List.forall_mem_append.mpr ⟨fun c hc => ?_, hletter⟩
  rw [isMark, ht.digits c hc]
  rfl

theorem bounds_lt (i : Fin 32) : lo i < 2 ^ 64 ∧ hi i < 2 ^ 64 := by
  decide +revert

theorem bucketKey_marks (decimal : STR.Decimal) (i : Fin 32) :
    ∀ c ∈ bucketKey STR i, isMark c = true := by
  have hmarks {val : ℕ} (hval : val < 2 ^ 64) :=
    decimal.toH_marks decimal.ofDouble hval
  simp only [bucketKey, List.forall_mem_append]
  exact ⟨⟨hmarks (bounds_lt i).1, by simp [isMark]⟩, hmarks (bounds_lt i).2⟩

/-- Abbreviated to thousands and millions the ranges still differ. -/
theorem bucketKey_injective (decimal : STR.Decimal) :
    Function.Injective (bucketKey STR) := by
  have hnodup : ((List.finRange 32).map fun i =>
      ((abbreviated (lo i)).1, ((abbreviated (lo i)).2 ++ ['-']).head?)).Nodup := by
    decide
  have hread (i : Fin 32) : (number (bucketKey STR i),
      ((bucketKey STR i).dropWhile Char.isDigit).head?) =
        ((abbreviated (lo i)).1, ((abbreviated (lo i)).2 ++ ['-']).head?) := by
    obtain ⟨t, ht, heq⟩ := decimal.toH_eq decimal.ofDouble (bounds_lt i).1
    have hrest : ∀ c ∈ ((abbreviated (lo i)).2 ++
        ('-' :: toH STR STR.ofDouble (hi i))).head?, c.isDigit = false := by
      unfold abbreviated
      split_ifs <;> simp
    have hkey : bucketKey STR i = t ++ ((abbreviated (lo i)).2 ++
        ('-' :: toH STR STR.ofDouble (hi i))) := by
      rw [bucketKey, heq]
      simp
    rw [hkey, ht.number_append hrest, (ht.span hrest).2]
    simp [List.head?_append]
  intro i j hkey
  refine List.inj_on_of_nodup_map hnodup (List.mem_finRange i)
    (List.mem_finRange j) ?_
  rw [← hread, ← hread, hkey]

theorem bucketKey_ne (decimal : STR.Decimal) (i : Fin 32) {key : Text}
    (hother : key.all isMark = false) : bucketKey STR i ≠ key := by
  rintro rfl
  rw [List.all_eq_true.mpr (decimal.bucketKey_marks i)] at hother
  cases hother

end LexicalCast.Decimal

theorem readEntry_entryRow {kv : Text × Text} (key : Printable kv.1)
    (val : Printable kv.2) : readEntry (entryRow kv) = some kv := by
  have hcells : ∀ cell ∈ [kv.1, kv.2], IsCell '|' ' ' cell := by
    simp only [List.forall_mem_cons]
    exact ⟨⟨key.1.1, key.2⟩, ⟨val.1.1, val.2⟩,
      fun _ h => absurd h List.not_mem_nil⟩
  rw [readEntry, entryRow, readRow_row (by decide) hcells]

theorem newline_notMem_entryRow {kv : Text × Text} (key : Plain kv.1)
    (val : Plain kv.2) : '\n' ∉ entryRow kv := by
  simp [entryRow, row, pad, key.2, val.2]

structure Doubles.Printable (doubles : Doubles) : Prop where
  time : Table.Printable doubles.time
  avg : Table.Printable doubles.avg
  bytesPerSec : Table.Printable doubles.bytesPerSec
  opsPerSec : Table.Printable doubles.opsPerSec

theorem mem_assign {kv : List (Text × Text)} {key val : Text}
    {e : Text × Text} :
    e ∈ assign kv key val ↔ e = (key, val) ∨ e ∈ kv ∧ e.1 ≠ key := by
  simp [assign]

section

variable {units : Text} {type : CounterType} {doubles : Doubles}
  {pc : PerfCounter}

theorem printable_assign {kv : List (Text × Text)} {key val : Text}
    (hkv : ∀ e ∈ kv, Printable e.1 ∧ Printable e.2) (hkey : Printable key)
    (hval : Printable val) :
    ∀ e ∈ assign kv key val, Printable e.1 ∧ Printable e.2 := by
  intro e he
  rcases mem_assign.mp he with rfl | ⟨hmem, -⟩
  · exact ⟨hkey, hval⟩
  · exact hkv e hmem

theorem printable_entries (decimal : STR.Decimal) (hunits : Printable units)
    (hne : units ≠ [])
    (hdoubles : doubles.Printable) :
    ∀ e ∈ entries STR units type doubles pc, Printable e.1 ∧ Printable e.2 := by
  have hstr (n : UInt64) : Printable (STR.ofInt n.toNat) :=
    (decimal.ofInt _ n.toNat_lt).printable
  have hunit : ∀ {t : Text}, Plain t → Printable (t ++ [' '] ++ units) :=
    fun ht => (ht.append (by decide)).append_printable hunits hne
  have hfirst : ∀ e ∈ ([] : List (Text × Text)), Printable e.1 ∧ Printable e.2 :=
    fun _ h => absurd h List.not_mem_nil
  have hval := printable_assign hfirst
    (by decide : Printable "Aggregate-value".toList) (hstr pc.val)
  have hcount := printable_assign hval (by decide : Printable "Count".toList)
    (hstr pc.count)
  have htime := printable_assign hcount (by decide : Printable "Time".toList)
    (hdoubles.time.1.append_printable (by decide : Printable [' ', 's'])
      (List.cons_ne_nil _ _))
  have hmax := printable_assign htime (by decide : Printable "Max".toList)
    (hunit (hstr pc.max).1)
  have hmin := printable_assign hmax (by decide : Printable "Min".toList)
    (hunit (hstr pc.min).1)
  have havg := printable_assign hmin (by decide : Printable "Avg".toList)
    (hunit hdoubles.avg.1)
  unfold entries
  dsimp only
  split
  · refine printable_assign (printable_assign havg ?_ hdoubles.bytesPerSec)
      (by decide) hdoubles.opsPerSec
    exact hunits.1.append_printable (by decide) (by decide)
  · exact havg

/-! ## What is read -/

theorem mem_assign_self {kv : List (Text × Text)} {key val t : Text} :
    (key, t) ∈ assign kv key val ↔ t = val := by
  simp [mem_assign]

theorem mem_assign_of_ne {kv : List (Text × Text)} {key key' val t : Text}
    (hne : key' ≠ key) : (key', t) ∈ assign kv key val ↔ (key', t) ∈ kv := by
  simp [mem_assign, hne]

theorem ne_perSec {key units : Text} (hlast : key.getLast? ≠ some 'c') :
    key ≠ units ++ "-per-sec".toList := by
  rintro rfl
  refine hlast ?_
  rw [List.getLast?_append_of_ne_nil _ (by decide)]
  decide

theorem mem_entries {key t : Text} (hlast : key.getLast? ≠ some 'c') :
    (key, t) ∈ entries STR units type doubles pc ↔
      (key, t) ∈ entries STR units .counter doubles pc := by
  have hops : key ≠ "ops-per-sec".toList := by
    rintro rfl
    exact hlast (by decide)
  unfold entries
  dsimp only
  split
  · rw [mem_assign_of_ne hops, mem_assign_of_ne (ne_perSec hlast),
      if_neg (by decide)]
  · rw [if_neg (by decide)]

theorem mem_entries_val {t : Text} :
    ("Aggregate-value".toList, t) ∈ entries STR units type doubles pc ↔
      t = STR.ofInt pc.val.toNat := by
  rw [mem_entries (by decide), entries]
  simp only [reduceCtorEq, if_false]
  rw [mem_assign_of_ne (by decide), mem_assign_of_ne (by decide),
    mem_assign_of_ne (by decide), mem_assign_of_ne (by decide),
    mem_assign_of_ne (by decide), mem_assign_self]

theorem mem_entries_count {t : Text} :
    ("Count".toList, t) ∈ entries STR units type doubles pc ↔
      t = STR.ofInt pc.count.toNat := by
  rw [mem_entries (by decide), entries]
  simp only [reduceCtorEq, if_false]
  rw [mem_assign_of_ne (by decide), mem_assign_of_ne (by decide),
    mem_assign_of_ne (by decide), mem_assign_of_ne (by decide), mem_assign_self]

theorem mem_entries_max {t : Text} :
    ("Max".toList, t) ∈ entries STR units type doubles pc ↔
      t = STR.ofInt pc.max.toNat ++ [' '] ++ units := by
  rw [mem_entries (by decide), entries]
  simp only [reduceCtorEq, if_false]
  rw [mem_assign_of_ne (by decide), mem_assign_of_ne (by decide),
    mem_assign_self]

theorem mem_entries_min {t : Text} :
    ("Min".toList, t) ∈ entries STR units type doubles pc ↔
      t = STR.ofInt pc.min.toNat ++ [' '] ++ units := by
  rw [mem_entries (by decide), entries]
  simp only [reduceCtorEq, if_false]
  rw [mem_assign_of_ne (by decide), mem_assign_self]

theorem bucketKey_notMem_entries (decimal : STR.Decimal) (i : Fin 32) (t : Text) :
    (bucketKey STR i, t) ∉ entries STR units type doubles pc := by
  have hlast : (bucketKey STR i).getLast? ≠ some 'c' := fun hlast =>
    notMem_of_class (decimal.bucketKey_marks i) rfl (List.mem_of_getLast? hlast)
  rw [mem_entries hlast, entries]
  simp only [reduceCtorEq, if_false]
  rw [mem_assign_of_ne (decimal.bucketKey_ne i (by decide)),
    mem_assign_of_ne (decimal.bucketKey_ne i (by decide)),
    mem_assign_of_ne (decimal.bucketKey_ne i (by decide)),
    mem_assign_of_ne (decimal.bucketKey_ne i (by decide)),
    mem_assign_of_ne (decimal.bucketKey_ne i (by decide)),
    mem_assign_of_ne (decimal.bucketKey_ne i (by decide))]
  exact List.not_mem_nil

theorem mem_bucketEntries (decimal : STR.Decimal) (counted : pc.count ≠ 0)
    (i : Fin 32) (t : Text) :
    (bucketKey STR i, t) ∈ pc.bucketLines.map (bucketEntry STR) ↔
      pc.bucket i ≠ 0 ∧ t = toH STR STR.ofInt (pc.bucket i).toNat := by
  have hline : ∀ j n, (j, n) ∈ pc.bucketLines ↔
      pc.bucket j ≠ 0 ∧ n = pc.bucket j := by
    intro j n
    simp only [bucketLines, counted, if_false, List.mem_filterMap, bucketLine,
      List.mem_finRange, true_and]
    constructor
    · rintro ⟨k, hk⟩
      split_ifs at hk with hzero
      cases hk
      exact ⟨hzero, rfl⟩
    · rintro ⟨hzero, rfl⟩
      exact ⟨j, if_neg hzero⟩
  rw [List.mem_map]
  constructor
  · rintro ⟨⟨j, n⟩, hmem, hentry⟩
    obtain ⟨hzero, rfl⟩ := (hline j n).mp hmem
    obtain ⟨hkey, rfl⟩ := Prod.mk.inj hentry
    obtain rfl := decimal.bucketKey_injective hkey
    exact ⟨hzero, rfl⟩
  · rintro ⟨hzero, rfl⟩
    exact ⟨(i, pc.bucket i), (hline i _).mpr ⟨hzero, rfl⟩, rfl⟩

section

variable {order : List (Text × Text) → List (Text × Text)}

theorem mem_rows_bucket (decimal : STR.Decimal)
    (horder : ∀ kv, (order kv).Perm kv) (counted : pc.count ≠ 0) (i : Fin 32)
    (t : Text) :
    (bucketKey STR i, t) ∈ rows STR units type doubles order pc ↔
      pc.bucket i ≠ 0 ∧ t = toH STR STR.ofInt (pc.bucket i).toNat := by
  rw [rows, List.mem_append, (horder _).mem_iff,
    iff_false_intro (bucketKey_notMem_entries decimal i t), false_or,
    mem_bucketEntries decimal counted]

theorem mem_rows (decimal : STR.Decimal) {key t : Text}
    (horder : ∀ kv, (order kv).Perm kv) (hother : key.all isMark = false) :
    (key, t) ∈ rows STR units type doubles order pc ↔
      (key, t) ∈ entries STR units type doubles pc := by
  rw [rows, List.mem_append, (horder _).mem_iff, or_iff_left]
  rw [List.mem_map]
  rintro ⟨line, -, hentry⟩
  exact decimal.bucketKey_ne line.1 hother (Prod.mk.inj hentry).1

theorem printable_bucketEntry (decimal : STR.Decimal) (line : Fin 32 × UInt32) :
    Printable (bucketEntry STR line).1 ∧ Printable (bucketEntry STR line).2 := by
  have hlt := line.2.toNat_lt
  have hcount : ∀ c ∈ toH STR STR.ofInt line.2.toNat, isMark c = true :=
    decimal.toH_marks (fun n hn => decimal.ofInt n (by omega)) (by omega)
  exact ⟨printable_of_class (decimal.bucketKey_marks line.1) rfl rfl rfl,
    printable_of_class hcount rfl rfl rfl⟩

theorem printable_rows (decimal : STR.Decimal)
    (horder : ∀ kv, (order kv).Perm kv) (hunits : Printable units)
    (hne : units ≠ []) (hdoubles : doubles.Printable) :
    ∀ e ∈ rows STR units type doubles order pc,
      Printable e.1 ∧ Printable e.2 := by
  intro e he
  rcases List.mem_append.mp he with hentry | hbucket
  · exact printable_entries decimal hunits hne hdoubles e
      ((horder _).mem_iff.mp hentry)
  · obtain ⟨line, -, rfl⟩ := List.mem_map.mp hbucket
    exact printable_bucketEntry decimal line

end

end

theorem readEntry_eq_none {line : Text} (hline : line.head? ≠ some '|') :
    readEntry line = none := by
  unfold readEntry
  cases line with
  | nil => rfl
  | cons c line =>
      have hc : c ≠ '|' := fun h => hline (congrArg some h)
      rw [readRow, if_neg hc]

theorem filterMap_readEntry {kvs : List (Text × Text)}
    (h : ∀ e ∈ kvs, Printable e.1 ∧ Printable e.2) :
    (kvs.map entryRow).filterMap readEntry = kvs := by
  induction kvs with
  | nil => rfl
  | cons kv kvs ih =>
      obtain ⟨hkv, hkvs⟩ := List.forall_mem_cons.mp h
      rw [List.map_cons,
        List.filterMap_cons_some (readEntry_entryRow hkv.1 hkv.2), ih hkvs]

theorem readTable_lines {name : Text} {kvs kvs' : List (Text × Text)}
    (hname : '\n' ∉ name)
    (h : ∀ e ∈ kvs ++ kvs', Printable e.1 ∧ Printable e.2) :
    readTable (([heading name, rule] ++ kvs.map entryRow ++ [rule] ++
      kvs'.map entryRow ++ [rule]).flatMap (· ++ ['\n'])) = kvs ++ kvs' := by
  have hheading : readEntry (heading name) = none :=
    readEntry_eq_none (by unfold heading; simp)
  have hrule : readEntry rule = none :=
    readEntry_eq_none (by unfold rule; simp)
  have hrows : ∀ e ∈ kvs ++ kvs', '\n' ∉ entryRow e := fun e he =>
    newline_notMem_entryRow (h e he).1.1 (h e he).2.1
  have hfree : ∀ l ∈ [heading name, rule] ++ kvs.map entryRow ++ [rule] ++
      kvs'.map entryRow ++ [rule], '\n' ∉ l := by
    have hstart : '\n' ∉ heading name := by
      have hfixed : '\n' ∉ "Perfcoutner: ".toList := by decide
      intro hmem
      exact (List.mem_append.mp hmem).elim hfixed hname
    have hplain : '\n' ∉ rule := by decide
    simp only [List.forall_mem_append, List.forall_mem_cons, List.forall_mem_map]
    simp only [List.forall_mem_append] at hrows
    exact ⟨⟨⟨⟨⟨hstart, hplain, by simp⟩, hrows.1⟩, hplain, by simp⟩, hrows.2⟩,
      hplain, by simp⟩
  obtain ⟨hkvs, hkvs'⟩ := List.forall_mem_append.mp h
  rw [readTable, linesOf_flatMap hfree]
  simp only [List.filterMap_append, filterMap_readEntry hkvs,
    filterMap_readEntry hkvs', List.filterMap_cons, hheading, hrule,
    List.filterMap_nil, List.nil_append, List.append_nil]

def Reads (table : List (Text × Text)) (key : String) (n : ℕ) : Prop :=
  (∃ t, (key.toList, t) ∈ table) ∧ ∀ t, (key.toList, t) ∈ table → number t = n

theorem Reads.of_unique {table : List (Text × Text)} {key : String} {n : ℕ}
    {numeral : Text} (value : Numeral n numeral) (rest : Text)
    (hrest : ∀ c ∈ rest.head?, c.isDigit = false)
    (h : ∀ t, (key.toList, t) ∈ table ↔ t = numeral ++ rest) :
    Reads table key n := by
  refine ⟨⟨_, (h _).mpr rfl⟩, fun t ht => ?_⟩
  rw [(h t).mp ht]
  exact value.number_append hrest

variable (STR) in
/-- The table says of the values what the counter keeps of them. -/
structure Tells (table : List (Text × Text)) (vals : List UInt32) : Prop where
  val : Reads table "Aggregate-value" (sum vals % 2 ^ 64)
  count : Reads table "Count" (vals.length % 2 ^ 64)
  max : ∃ val ∈ vals, (∀ v ∈ vals, v ≤ val) ∧ Reads table "Max" val.toNat
  min : ∃ val ∈ vals, (∀ v ∈ vals, val ≤ v) ∧ Reads table "Min" val.toNat
  bucket : ∀ i t, (bucketKey STR i, t) ∈ table ↔
    (vals.countP fun val => Belongs i val) % 2 ^ 32 ≠ 0 ∧
      t = toH STR STR.ofInt ((vals.countP fun val => Belongs i val) % 2 ^ 32)

variable {Tid : Type} [DecidableEq Tid] [Fintype Tid]

section

variable {units : Text} {type : CounterType} {doubles : Doubles}
  {order : List (Text × Text) → List (Text × Text)} {vals : List UInt32}
  {s : State Tid}

omit [DecidableEq Tid] in
theorem tells_rows (decimal : STR.Decimal) (h : Accounted vals s)
    (returned : ∀ i, s.pc i = .idle)
    (counted : s.counter.count ≠ 0) (horder : ∀ kv, (order kv).Perm kv) :
    Tells STR (rows STR units type doubles order s.counter) vals := by
  have hoffered : offered vals ≠ [] := by
    intro hnil
    refine counted (UInt64.toNat_inj.mp ?_)
    rw [h.count_eq returned, List.map_eq_nil_iff.mp hnil]
    rfl
  have hstr (n : UInt64) : Numeral n.toNat (STR.ofInt n.toNat) :=
    decimal.ofInt _ n.toNat_lt
  have hword (val : UInt32) : Numeral val.toNat (STR.ofInt val.toNat) :=
    decimal.ofInt _ (val.toNat_lt.trans (by decide))
  constructor
  · rw [← h.val.settled (fun i => by rw [returned i]; rfl)
      s.counter.val.toNat_lt]
    refine .of_unique (hstr _) [] (by simp) fun t => ?_
    rw [mem_rows decimal horder (by decide), mem_entries_val, List.append_nil]
  · rw [← h.count_eq returned]
    refine .of_unique (hstr _) [] (by simp) fun t => ?_
    rw [mem_rows decimal horder (by decide), mem_entries_count,
      List.append_nil]
  · obtain ⟨hmem, hgreatest⟩ := h.max.settled (fun i => by rw [returned i]; rfl)
      hoffered (fun v _ => UInt64.zero_le)
      fun hab hba => UInt64.le_antisymm hba hab
    obtain ⟨val, hval, hmax⟩ := List.mem_map.mp hmem
    refine ⟨val, hval, fun v hv => ?_, ?_⟩
    · have hle := hgreatest _ (List.mem_map_of_mem hv)
      rw [← hmax, ge_iff_le, UInt64.le_iff_toNat_le] at hle
      simpa [UInt32.le_iff_toNat_le] using hle
    · refine .of_unique (hword val) ([' '] ++ units) (by simp) fun t => ?_
      rw [mem_rows decimal horder (by decide), mem_entries_max, ← hmax,
        UInt32.toNat_toUInt64, List.append_assoc]
  · obtain ⟨hmem, hleast⟩ := h.min.settled (fun i => by rw [returned i]; rfl)
      hoffered (offered_le vals) UInt64.le_antisymm
    obtain ⟨val, hval, hmin⟩ := List.mem_map.mp hmem
    refine ⟨val, hval, fun v hv => ?_, ?_⟩
    · have hle := hleast _ (List.mem_map_of_mem hv)
      rw [← hmin, UInt64.le_iff_toNat_le] at hle
      simpa [UInt32.le_iff_toNat_le] using hle
    · refine .of_unique (hword val) ([' '] ++ units) (by simp) fun t => ?_
      rw [mem_rows decimal horder (by decide), mem_entries_min, ← hmin,
        UInt32.toNat_toUInt64, List.append_assoc]
  · intro i t
    rw [mem_rows_bucket decimal horder counted, ← h.bucket_eq returned, ne_eq, ne_eq,
      ← UInt32.toNat_inj]
    rfl

end

/--
Once all calls of `Update` that were begun have returned, reading the table that
is printed gives back what the counter keeps of their values, whatever the order
of the steps and that of the map.
-/
theorem table_tells {tr : History (State Tid) (Action Tid)} {s : State Tid}
    {name units : Text} {type : CounterType} {doubles : Doubles}
    {order : List (Text × Text) → List (Text × Text)} {os : OStream}
    (decimal : STR.Decimal) (run : (system Tid).Exec tr s)
    (returned : ∀ i, s.pc i = .idle)
    (counted : (begun tr).length % 2 ^ 64 ≠ 0)
    (horder : ∀ kv, (order kv).Perm kv) (width : os.width = 0)
    (hname : '\n' ∉ name) (hunits : Printable units) (hne : units ≠ [])
    (hdoubles : doubles.Printable) :
    ∃ out, (output STR name units type doubles order s.counter os).text =
        os.text ++ out ∧
      Tells STR (readTable out) (begun tr) := by
  have h := accounted_exec run
  have hcount : s.counter.count ≠ 0 := by
    intro hzero
    rw [← h.count_eq returned, hzero] at counted
    exact counted rfl
  refine ⟨_, output_text STR width hcount, ?_⟩
  rw [readTable_lines hname (printable_rows decimal horder hunits hne hdoubles)]
  exact tells_rows decimal h returned hcount horder

def LexicalCast.digits : LexicalCast := ⟨Nat.toDigits 10, Nat.toDigits 10⟩

theorem LexicalCast.decimal_digits : LexicalCast.digits.Decimal := by
  have hdigits (n : ℕ) : Numeral n (Nat.toDigits 10 n) :=
    ⟨fun c hc => Nat.isDigit_of_mem_toDigits (by decide) (by decide) hc,
      Nat.ofDigitChars_ten_toDigits⟩
  exact ⟨fun n _ => hdigits n, fun n _ => hdigits n⟩

theorem overlapping_updates_table_tells :
    ∃ (tr : History (State (Fin 2)) (Action (Fin 2))) (s : State (Fin 2)),
      (system (Fin 2)).Exec tr s ∧ begun tr = [3000, 5] ∧
      ∃ out, (output .digits "disk".toList ['B'] .bytes
          ⟨"0.5".toList, "1K".toList, "6K".toList, "4".toList⟩
          List.reverse s.counter ⟨['>'], 0, '0', false⟩).text = ['>'] ++ out ∧
        Tells .digits (readTable out) (begun tr) := by
  obtain ⟨tr, s, run, htest⟩ : ∃ tr s, (system (Fin 2)).Exec tr s ∧
      decide ((∀ i, s.pc i = .idle) ∧ begun tr = [3000, 5]) = true :=
    Exec.ofRecord exec (initial (Fin 2))
      ([.update 0 5, .update 1 3000] ++
        (List.replicate 9 [.next 0, .next 1]).flatten ++ [.next 1, .next 1])
      (fun r => decide ((∀ i, r.2.pc i = .idle) ∧ begun r.1 = [3000, 5]))
      rfl (by decide)
  obtain ⟨hidle, hbegun⟩ := of_decide_eq_true htest
  have hdoubles : Doubles.Printable
      ⟨"0.5".toList, "1K".toList, "6K".toList, "4".toList⟩ :=
    ⟨by decide, by decide, by decide, by decide⟩
  have hname : '\n' ∉ "disk".toList := by decide
  have hunits : Printable ['B'] := by decide
  exact ⟨tr, s, run, hbegun, table_tells LexicalCast.decimal_digits run hidle
    (by rw [hbegun]; decide) (fun kv => List.reverse_perm kv) rfl hname hunits
    (List.cons_ne_nil _ _) hdoubles⟩

end PerfCounter.Table

end Iocore
