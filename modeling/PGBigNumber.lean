import PGBigNumber.Store.DivAssign
import PGBigNumber.Store.Alias
import PGBigNumber.Store.Bitwise
import PGBigNumber.Store.Overloads
import PGBigNumber.Store.AssignBytes
import PGBigNumber.Store.Text
import PGBigNumber.Store.Export
import PGBigNumber.Store.Checked
import PGBigNumber.Store.DivByZero
import PGBigNumber.Store.Range
import PGBigNumber.Store.Runs
import PGBigNumber.Fraction.Texts
import PGBigNumber.Infix.Accept
import PGBigNumber.Infix.Lexemes
import PGBigNumber.Infix.Grammar
import PGBigNumber.Infix.Codes
import PGBigNumber.Decimal
import PGBigNumber.Slices.Runs
import PGBigNumber.Parallel.Shutdown
import PGBigNumber.Infix.Exact
import PGBigNumber.Infix.PoolRuns
import PGBigNumber.Pgbn.Basic
import PGBigNumber.Pgbn.Owned
import PGBigNumber.Pgbn.Exact
