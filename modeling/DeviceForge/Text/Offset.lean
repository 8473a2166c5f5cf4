/-!
# Byte offsets

Positions in a text are counted in the bytes of its UTF-8 form.
-/

namespace DeviceForge.Text

def byteLength : List Char → Nat
  | [] => 0
  | c :: cs => c.utf8Size + byteLength cs

@[simp] theorem byteLength_nil : byteLength [] = 0 := rfl

@[simp] theorem byteLength_cons (c : Char) (cs : List Char) :
    byteLength (c :: cs) = c.utf8Size + byteLength cs := rfl

@[simp] theorem byteLength_append (as bs : List Char) :
    byteLength (as ++ bs) = byteLength as + byteLength bs := by
  induction as with
  | nil => simp
  | cons c cs ih => simp [ih, Nat.add_assoc]

theorem utf8ByteSize_ofList (cs : List Char) : (String.ofList cs).utf8ByteSize = byteLength cs := by
  induction cs with
  | nil => rfl
  | cons c cs ih => simp [String.ofList_cons, String.utf8ByteSize_append, ih]

/-- What stands at and after the byte offset `n`: how many bytes are left of a character that `n` falls
into, and the characters after it. -/
def after : Nat → List Char → Nat × List Char
  | _, [] => (0, [])
  | n, c :: cs =>
    if n = 0 then (0, c :: cs)
    else if n < c.utf8Size then (c.utf8Size - n, cs)
    else after (n - c.utf8Size) cs

def byteAt? : Nat → List Char → Option UInt8
  | _, [] => none
  | n, c :: cs =>
    if n < c.utf8Size then (String.utf8EncodeChar c)[n]? else byteAt? (n - c.utf8Size) cs

def placed (pos : Nat) : List Char → List (Nat × Char)
  | [] => []
  | c :: cs => (pos, c) :: placed (pos + c.utf8Size) cs

@[simp]
theorem map_snd_placed (pos : Nat) (cs : List Char) : (placed pos cs).map (·.2) = cs := by
  induction cs generalizing pos with
  | nil => rfl
  | cons c cs ih => simp [placed, ih]

def slice (start stop : Nat) (cs : List Char) : List Char :=
  ((placed 0 cs).filter fun (pos, _) => start ≤ pos ∧ pos < stop).map (·.2)

def cut (start stop : Nat) (cs : List Char) : List Char :=
  ((placed 0 cs).filter fun (pos, _) => ¬(start ≤ pos ∧ pos < stop)).map (·.2)

end DeviceForge.Text
