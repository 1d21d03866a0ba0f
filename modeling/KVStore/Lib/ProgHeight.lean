import KVStore.Lib.CrashProgram

namespace KVStore.Lib.CrashProgram

variable {O : Type} {R : O → Type} {α : Type}

/-- How far a program is from its end, whatever the operations return. -/
noncomputable def Prog.height : Prog O R α → Ordinal.{0}
  | .ret _ => 0
  | .op _ k => Order.succ (⨆ r, (k r).height)

theorem Prog.height_lt (o : O) (k : R o → Prog O R α) (r : R o) : (k r).height < (Prog.op o k).height := by
  rw [Prog.height, Order.lt_succ_iff]
  exact Ordinal.le_iSup (fun r => (k r).height) r

end KVStore.Lib.CrashProgram
