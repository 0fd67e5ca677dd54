import Mathlib.Data.List.Pairwise
import Reckoner.Calculator

/-!
# What a calculator amounts to

Of its table a calculator shows no more than which function a name stands for. Main statements: a
calculator behaves as its separator and the function of every name, and two calculators that agree
in these cannot be told apart.
-/
namespace Reckoner

namespace FunctionTable

variable (t : FunctionTable)

theorem names_ascend : t.names.Pairwise fun a b => Text.byteOrder a b = .lt :=
  Std.TreeMap.ordered_keys

theorem mem_names_iff {name : String} : name ∈ t.names ↔ (t.get? name).isSome = true :=
  Std.TreeMap.mem_keys.trans Std.TreeMap.mem_iff_isSome_getElem?

/-- Two lists in byte order with the same names are the same. -/
theorem eq_of_mem_iff {names others : List String}
    (hnames : names.Pairwise fun a b => Text.byteOrder a b = .lt)
    (hothers : others.Pairwise fun a b => Text.byteOrder a b = .lt)
    (h : ∀ name, name ∈ names ↔ name ∈ others) : names = others := by
  have hne {a b : String} (hab : Text.byteOrder a b = .lt) : a ≠ b := by
    rintro rfl
    exact Std.OrientedCmp.not_lt_of_lt hab hab
  have hperm : names.Perm others :=
    (List.perm_ext_iff_of_nodup (hnames.imp hne) (hothers.imp hne)).mpr h
  refine hperm.eq_of_pairwise (fun a b _ _ hab hba => ?_) hnames hothers
  exact absurd hba (Std.OrientedCmp.not_lt_of_lt hab)

/-- Of functions put into a table under different names, each is found. -/
theorem get?_foldl_register {entries : List (String × (Float → Float))}
    (hnodup : (entries.map Prod.fst).Nodup) (name : String) :
    (entries.foldl (fun t entry => t.register entry.1 entry.2) t).get? name =
      (entries.lookup name).or (t.get? name) := by
  induction entries generalizing t with
  | nil => rfl
  | cons entry entries ih =>
    rw [List.map_cons, List.nodup_cons] at hnodup
    rw [List.foldl_cons, ih _ hnodup.2, get?_register, List.lookup_cons]
    by_cases hname : entry.1 = name
    · have hnone : entries.lookup name = none := by
        rw [List.lookup_eq_none_iff]
        rintro ⟨other, f⟩ hmem
        have : name ≠ other := by
          rintro rfl
          exact hnodup.1 (hname ▸ List.mem_map_of_mem hmem)
        simpa using this
      simp [hnone, hname]
    · have hne : (name == entry.1) = false := by simpa using Ne.symm hname
      simp [hne, hname]

end FunctionTable

theorem Builtin.get?_table (name : String) :
    Builtin.table.get? name = Builtin.functions.lookup name := by
  have hnodup : (Builtin.functions.map Prod.fst).Nodup := by decide
  rw [Builtin.table, FunctionTable.ofList, FunctionTable.get?_foldl_register _ hnodup,
    FunctionTable.get?_empty, Option.or_none]

/-- A separator and the functions that names stand for. -/
structure View where
  separator : Separator
  resolve : String → Option (Float → Float)

namespace View

def ofSeparator (separator : Separator) : View :=
  ⟨separator, fun name => Builtin.functions.lookup name⟩

def choose (char : Char) (v : View) : View :=
  match Separator.ofChar char with
  | .ok separator => { v with separator }
  | .error _ => v

def register (name : String) (f : Float → Float) (v : View) : View :=
  { v with resolve := fun other => if name = other then some f else v.resolve other }

def evaluate (v : View) (source : String) : Except EvalError Float :=
  Meaning.read { FunctionTable.empty.meaning with call? := fun _ name => v.resolve name }
    (.ofSource v.separator.char source)

def text (v : View) (names : List String) : String :=
  "Calculator \x7b config: Config \x7b decimal_separator: " ++ Text.quoteChar v.separator.char ++
    " \x7d, functions: " ++ ("FunctionTable \x7b functions: [" ++
      ", ".intercalate (names.map Text.quoteString) ++ "] \x7d") ++ " \x7d"

theorem register_comm {a b : String} (hne : a ≠ b) (f g : Float → Float) (v : View) :
    (v.register a f).register b g = (v.register b g).register a f := by
  refine congrArg (View.mk v.separator) (funext fun name => ?_)
  by_cases ha : a = name
  · have hb : b ≠ name := fun hb => hne (ha.trans hb.symm)
    simp [register, ha, hb]
  · simp [register, ha]

end View

namespace Calculator

/-- What the calculator amounts to. -/
def view (c : Calculator) : View := ⟨c.separator, c.functions.get?⟩

@[simp] theorem separator_view (c : Calculator) : c.view.separator = c.separator := rfl

theorem view_ofSeparator (separator : Separator) :
    (ofSeparator separator).view = .ofSeparator separator :=
  congrArg (View.mk separator) (funext Builtin.get?_table)

theorem view_register (c : Calculator) (name : String) (f : Float → Float) :
    (c.register name f).view = c.view.register name f :=
  congrArg (View.mk c.separator) (funext fun other => c.functions.get?_register name other f)

theorem setSeparator_cases (c : Calculator) (char : Char) :
    (∃ separator, Separator.ofChar char = .ok separator ∧
        c.setSeparator char = .ok { c with separator } ∧
        c.view.choose char = { c with separator : Calculator }.view) ∨
      ∃ e, Separator.ofChar char = .error e ∧ c.setSeparator char = .error e ∧
        c.view.choose char = c.view := by
  rw [setSeparator, View.choose]
  cases Separator.ofChar char with
  | ok separator => exact .inl ⟨separator, rfl, rfl, rfl⟩
  | error e => exact .inr ⟨e, rfl, rfl, rfl⟩

theorem evaluate_view (c : Calculator) (source : String) :
    c.evaluate source = c.view.evaluate source := rfl

theorem describe_view (c : Calculator) :
    ∃ names, (names.Pairwise fun a b => Text.byteOrder a b = .lt) ∧
      (∀ name, name ∈ names ↔ (c.view.resolve name).isSome = true) ∧
      c.describe = c.view.text names :=
  ⟨c.functions.names, c.functions.names_ascend, fun _ => c.functions.mem_names_iff, rfl⟩

theorem describe_of_view {c d : Calculator} (h : c.view = d.view) : c.describe = d.describe := by
  obtain ⟨names, hnames, hmem, hc⟩ := c.describe_view
  obtain ⟨others, hothers, hmem', hd⟩ := d.describe_view
  have heq : names = others := FunctionTable.eq_of_mem_iff hnames hothers fun name => by
    rw [hmem, hmem', h]
  rw [hc, hd, h, heq]

end Calculator

end Reckoner
