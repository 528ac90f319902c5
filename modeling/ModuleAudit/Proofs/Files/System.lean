import ModuleAudit.Files.System

/-! Reading a file whose way is known. Whether a path is one at all is decided on its text, which does not compute; what
    its steps lead to does. -/

namespace ModuleAudit.FileSystem

open Files

variable {fs : FileSystem} {path : String} {start l : Location} {names : List String} {bytes : List UInt8}

theorem checkPath_eq_ok (hnul : '\x00' ∉ path.toList) (hne : path.isEmpty = false)
    (hsize : path.utf8ByteSize ≤ 4095) : checkPath path = .ok () := by
  rw [checkPath, String.contains_char_eq, decide_eq_false hnul, hne, if_neg (by decide),
    if_neg (by decide), if_neg (Nat.not_lt.mpr hsize)]

theorem read_of_walk (hcheck : checkPath path = .ok ()) (horigin : fs.origin path = start)
    (hsteps : steps path = names) (hwalk : fs.walk start names = .ok l)
    (hentry : fs.entry? l = some (.file bytes)) : fs.read path = .ok bytes := by
  have hlocate : fs.locate path = .ok l := by
    rw [locate, hcheck, horigin, hsteps]
    exact hwalk
  rw [read, hlocate]
  simp only [bind, Except.bind, hentry]

theorem readText_of_walk {text : String} (hcheck : checkPath path = .ok ()) (horigin : fs.origin path = start)
    (hsteps : steps path = names) (hwalk : fs.walk start names = .ok l)
    (hentry : fs.entry? l = some (.file bytes)) (htext : String.fromUTF8? bytes.toByteArray = some text) :
    fs.readText path = .ok text := by
  rw [readText, read_of_walk hcheck horigin hsteps hwalk hentry]
  simp only [bind, Except.bind, htext]

end ModuleAudit.FileSystem
