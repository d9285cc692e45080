import PlasmaEvm.Common.Types
import PlasmaEvm.Rlp.Split
import PlasmaEvm.Trie.Iterator
import PlasmaEvm.Pls.Range
import PlasmaEvm.Pls.StorageRange
import PlasmaEvm.Pls.AccountRange
import PlasmaEvm.Pls.ImportChain
import PlasmaEvm.Pls.ExportChain
import PlasmaEvm.Pls.ApiBackend
import PlasmaEvm.Pls.ModifiedAccounts
