import Axlibc.Kernel
import Axlibc.Sched
import Axlibc.CpuSet
import Axlibc.Cmsg
import Axlibc.Sendmsg
import Axlibc.CmsgFormat
import Axlibc.Accept
import Axlibc.Interleaving
import Axlibc.PthreadMutex
import Axlibc.PthreadCondvar
import Axlibc.PthreadJoin
