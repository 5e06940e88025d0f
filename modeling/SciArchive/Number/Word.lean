/-! Sizes, and places in memory, are words of 64 bits. What is modelled is the program as it is released, whose sums
and products wrap. Built with overflow checks it stops where one leaves the word. -/
namespace SciArchive

/-- What a word of 64 bits keeps of a number. -/
def wrap (n : Nat) : Nat := n % UInt64.size

theorem wrap_of_lt {n : Nat} (h : n < UInt64.size) : wrap n = n := Nat.mod_eq_of_lt h

end SciArchive
